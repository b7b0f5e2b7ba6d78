import HexBench.Proofs.Order
import HexBench.Proofs.Plusarg.Pattern
import Mathlib.Data.List.Induction
import Mathlib.Logic.Function.Basic

set_option autoImplicit false

namespace HexBench

namespace Plusarg

def Gives (name : String) (value : Option String) (argument : String) : Prop :=
  WellFormed ⟨name, value⟩ ∧ text ⟨name, value⟩ = argument

def Names (name argument : String) : Prop := ∃ value, Gives name value argument

def SharesName (argument other : String) : Prop := ∃ name, Names name argument ∧ Names name other

theorem gives_iff {name argument : String} {value : Option String} :
    Gives name value argument ↔ ofArgument? argument = some ⟨name, value⟩ :=
  ofArgument?_eq_some_iff.symm

theorem names_iff {name argument : String} :
    Names name argument ↔ (ofArgument? argument).map Plusarg.name = some name := by
  rw [Option.map_eq_some_iff]
  constructor
  · rintro ⟨value, hgives⟩
    exact ⟨_, gives_iff.mp hgives, rfl⟩
  · rintro ⟨p, hp, rfl⟩
    exact ⟨p.value, gives_iff.mpr hp⟩

theorem names_text {p : Plusarg} (h : p.WellFormed) (name : String) :
    Names name p.text ↔ p.name = name := by
  rw [names_iff, ofArgument?_text h, Option.map_some, Option.some.injEq]

theorem sharesName_iff {argument other : String} : SharesName argument other ↔
    (ofArgument? argument).isSome = true ∧
      (ofArgument? argument).map Plusarg.name = (ofArgument? other).map Plusarg.name := by
  simp only [SharesName, names_iff]
  constructor
  · rintro ⟨name, hargument, hother⟩
    obtain ⟨p, hp, _⟩ := Option.map_eq_some_iff.mp hargument
    exact ⟨by rw [hp]; rfl, hargument.trans hother.symm⟩
  · rintro ⟨hsome, hsame⟩
    obtain ⟨p, hp⟩ := Option.isSome_iff_exists.mp hsome
    rw [hp] at hsame ⊢
    exact ⟨p.name, rfl, hsame.symm⟩

instance (name argument : String) (value : Option String) : Decidable (Gives name value argument) :=
  decidable_of_iff _ gives_iff.symm

instance (name argument : String) : Decidable (Names name argument) :=
  decidable_of_iff _ names_iff.symm

instance (argument other : String) : Decidable (SharesName argument other) :=
  decidable_of_iff _ sharesName_iff.symm

end Plusarg

namespace Plusargs

open Plusarg

theorem last?_append (before after : List String) (name : String) :
    last? ⟨before ++ after⟩ name = (last? ⟨after⟩ name).or (last? ⟨before⟩ name) := by
  simp only [last?, List.filterMap_append, List.reverse_append, List.find?_append]

theorem last?_singleton (argument name : String) :
    last? ⟨[argument]⟩ name = (ofArgument? argument).filter fun p => p.name == name := by
  cases hp : ofArgument? argument with
  | none => simp [last?, hp]
  | some p => by_cases hname : p.name = name <;> simp [last?, hp, hname, Option.filter_some]

theorem last?_of_gives {name argument : String} {value : Option String}
    (h : Gives name value argument) : last? ⟨[argument]⟩ name = some ⟨name, value⟩ := by
  rw [last?_singleton, gives_iff.mp h]
  simp

theorem last?_of_not_names {name argument : String} (h : ¬Names name argument) :
    last? ⟨[argument]⟩ name = none := by
  rw [last?_singleton]
  cases hp : ofArgument? argument with
  | none => rfl
  | some p =>
    have hname : p.name ≠ name := by
      rintro rfl
      exact h (names_iff.mpr (by rw [hp]; rfl))
    simp [hname]

theorem last?_eq_none_iff {arguments : List String} {name : String} :
    last? ⟨arguments⟩ name = none ↔ ∀ argument ∈ arguments, ¬Names name argument := by
  induction arguments with
  | nil => exact iff_of_true rfl nofun
  | cons argument rest ih =>
    rw [← List.singleton_append, last?_append, Option.or_eq_none_iff, ih, List.singleton_append,
      List.forall_mem_cons, and_comm]
    refine and_congr_left' ⟨?_, last?_of_not_names⟩
    rintro hnone ⟨value, hgives⟩
    rw [last?_of_gives hgives] at hnone
    cases hnone

/-- The last argument that gives the name gives it with this value, or without one. -/
def LastGives (arguments : List String) (name : String) (value : Option String) : Prop :=
  ∃ before argument after, arguments = before ++ argument :: after ∧ Gives name value argument ∧
    ∀ later ∈ after, ¬Names name later

theorem name_of_last? {a : Plusargs} {name : String} {p : Plusarg} (h : a.last? name = some p) :
    p.name = name :=
  eq_of_beq (List.find?_eq_some_iff_append.mp h).1

theorem last?_eq_some_iff {arguments : List String} {name : String} {value : Option String} :
    last? ⟨arguments⟩ name = some ⟨name, value⟩ ↔ LastGives arguments name value := by
  constructor
  · intro h
    induction arguments with
    | nil => cases h
    | cons argument rest ih =>
      rw [← List.singleton_append, last?_append] at h
      cases hrest : last? ⟨rest⟩ name with
      | none =>
        rw [hrest, Option.none_or, last?_singleton, Option.filter_eq_some_iff] at h
        exact ⟨[], argument, rest, rfl, gives_iff.mpr h.1, last?_eq_none_iff.mp hrest⟩
      | some p =>
        rw [hrest, Option.some_or] at h
        obtain ⟨before, later, after, rfl, hgives, hlast⟩ := ih (hrest.trans h)
        exact ⟨argument :: before, later, after, rfl, hgives, hlast⟩
  · rintro ⟨before, argument, after, rfl, hgives, hlast⟩
    rw [← List.singleton_append, last?_append, last?_append, last?_eq_none_iff.mpr hlast,
      last?_of_gives hgives]
    rfl

theorem value?_of_lastGives {arguments : List String} {name : String} {value : Option String}
    (h : LastGives arguments name value) : value? ⟨arguments⟩ name = value := by
  rw [value?, last?_eq_some_iff.mpr h]
  rfl

theorem value?_eq_some_iff {arguments : List String} {name value : String} :
    value? ⟨arguments⟩ name = some value ↔ LastGives arguments name (some value) := by
  refine ⟨fun h => ?_, value?_of_lastGives⟩
  obtain ⟨⟨_, _⟩, hp, rfl⟩ := Option.bind_eq_some_iff.mp h
  obtain rfl := name_of_last? hp
  exact last?_eq_some_iff.mp hp

theorem last?_filter (arguments : List String) (name : String) :
    last? ⟨arguments.filter fun argument => Names name argument⟩ name =
      last? ⟨arguments⟩ name := by
  induction arguments with
  | nil => rfl
  | cons argument rest ih =>
    rw [← List.singleton_append, List.filter_append, last?_append, last?_append, ih]
    by_cases hnames : Names name argument
    · rw [List.filter_singleton, decide_eq_true hnames]
      rfl
    · rw [List.filter_singleton, decide_eq_false hnames, last?_of_not_names hnames]
      rfl

theorem has_iff {arguments : List String} {name : String} :
    has ⟨arguments⟩ name = true ↔ ∃ argument ∈ arguments, Names name argument := by
  rw [has, Option.isSome_iff_ne_none, ne_eq, last?_eq_none_iff]
  simp only [not_forall, not_not, exists_prop]

theorem lookup_congr {arguments others : List String} {name : String}
    (h : last? ⟨others⟩ name = last? ⟨arguments⟩ name) :
    has ⟨others⟩ name = has ⟨arguments⟩ name ∧
      value? ⟨others⟩ name = value? ⟨arguments⟩ name := by
  simp only [has, value?, h, and_self]

theorem last?_reordered {arguments : List String} {order : List (Fin arguments.length)}
    (hperm : order.Perm (List.finRange _))
    (hkeeps : order.Pairwise fun i j =>
      SharesName (arguments.get i) (arguments.get j) → i < j) (name : String) :
    last? ⟨order.map arguments.get⟩ name = last? ⟨arguments⟩ name := by
  let names (i : Fin arguments.length) : Bool := Names name (arguments.get i)
  have hsame : order.filter names = (List.finRange _).filter names := by
    refine filter_order hperm names (hkeeps.imp fun {i j} hshared hi hj => ?_)
    exact hshared ⟨name, of_decide_eq_true hi, of_decide_eq_true hj⟩
  have hplaces (places : List (Fin arguments.length)) :
      (places.map arguments.get).filter (fun argument => Names name argument) =
        (places.filter names).map arguments.get := List.filter_map
  have hold : (List.finRange _).map arguments.get = arguments := List.map_get_finRange arguments
  rw [← last?_filter, hplaces, hsame, ← hplaces, hold, last?_filter]

/-- For each name that was given, its value if it has one. -/
abbrev Table := String → Option (Option String)

def Table.enter (t : Table) (argument : String) : Table :=
  match ofArgument? argument with
  | none => t
  | some p => Function.update t p.name (some p.value)

def table (a : Plusargs) : Table := a.arguments.foldl Table.enter fun _ => none

theorem Table.enter_eq (t : Table) (argument name : String) :
    t.enter argument name = ((last? ⟨[argument]⟩ name).map Plusarg.value).or (t name) := by
  rw [last?_singleton, enter]
  cases ofArgument? argument with
  | none => rfl
  | some p =>
    by_cases hname : p.name = name
    · simp [hname, Option.filter_some]
    · simp [hname, Option.filter_some, Function.update_of_ne (Ne.symm hname)]

theorem table_eq (arguments : List String) (name : String) :
    table ⟨arguments⟩ name = (last? ⟨arguments⟩ name).map Plusarg.value := by
  induction arguments using List.reverseRecOn with
  | nil => rfl
  | append_singleton before argument ih =>
    have hstep : table ⟨before ++ [argument]⟩ = (table ⟨before⟩).enter argument :=
      List.foldl_concat ..
    rw [hstep, Table.enter_eq, ih, last?_append]
    cases last? ⟨[argument]⟩ name <;> rfl

/-- A name is given if some argument gives it, and its value is that of the last such argument, even
if that one has none. Arguments that do not give the name have no part in it, and arguments that
share no name can change places. A table filled from the left says the same, and a plusarg is what
the pattern matches. -/
theorem lookup_last_given (arguments : List String) :
    let a : Plusargs := ⟨arguments⟩
    a.arguments = arguments ∧
    (∀ name,
      (a.has name = true ↔ ∃ argument ∈ arguments, Names name argument) ∧
      (a.has name = false → a.value? name = none) ∧
      (∀ value, LastGives arguments name value → a.value? name = value) ∧
      (∀ others : List String, (others.filter fun other => Names name other) =
          (arguments.filter fun argument => Names name argument) →
        has ⟨others⟩ name = a.has name ∧ value? ⟨others⟩ name = a.value? name) ∧
      a.table name = if a.has name then some (a.value? name) else none) ∧
    (∀ order : List (Fin arguments.length), order.Perm (List.finRange _) →
      (order.Pairwise fun i j => SharesName (arguments.get i) (arguments.get j) → i < j) →
      ∀ name, has ⟨order.map arguments.get⟩ name = a.has name ∧
        value? ⟨order.map arguments.get⟩ name = a.value? name) ∧
    ∀ argument groups, pattern.Matches argument.toList groups ↔
      ∃ p, ofArgument? argument = some p ∧ groups = p.held := by
  intro a
  refine ⟨rfl, fun name => ⟨has_iff, ?_, fun _ => value?_of_lastGives, ?_, ?_⟩, ?_,
    fun _ _ => matches_pattern_iff⟩
  · intro hnone
    rw [has, Option.isSome_eq_false_iff, Option.isNone_iff_eq_none] at hnone
    rw [value?, hnone]
    rfl
  · intro others hothers
    apply lookup_congr
    rw [← last?_filter others, hothers, last?_filter]
  · rw [table_eq, has, value?]
    cases last? ⟨arguments⟩ name <;> rfl
  · intro order hperm hkeeps name
    exact lookup_congr (last?_reordered hperm hkeeps name)

/-- The last argument that gives the name `a` has no value, though an earlier one has. -/
theorem lookup_last_given_erased :
    let arguments := ["+a=1", "+b", "x", "+a", "+b=p=q", "+=y", "+c=\n"]
    let order : List (Fin arguments.length) := [1, 4, 0, 2, 6, 3, 5]
    let a : Plusargs := ⟨arguments⟩
    LastGives arguments "a" none ∧ a.value? "a" = none ∧ order.Perm (List.finRange _) ∧
      (order.Pairwise fun i j => SharesName (arguments.get i) (arguments.get j) → i < j) ∧
      value? ⟨order.map arguments.get⟩ "b" = some "p=q" ∧ a.has "c" = false := by
  intro arguments order a
  obtain ⟨_, hlookup, hreordered, _⟩ := lookup_last_given arguments
  have hlast : LastGives arguments "a" none :=
    ⟨["+a=1", "+b", "x"], "+a", ["+b=p=q", "+=y", "+c=\n"], rfl, by decide +kernel,
      by decide +kernel⟩
  have hperm : order.Perm (List.finRange _) := by decide +kernel
  have hkeeps : order.Pairwise fun i j =>
      SharesName (arguments.get i) (arguments.get j) → i < j := by decide +kernel
  obtain ⟨_, _, hvalue, _⟩ := hlookup "a"
  exact ⟨hlast, hvalue none hlast, hperm, hkeeps,
    (hreordered order hperm hkeeps "b").2.trans (by decide +kernel), by decide +kernel⟩

end Plusargs

end HexBench
