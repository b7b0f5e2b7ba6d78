import HexBench.Proofs.Plusarg.Lookup

set_option autoImplicit false

namespace HexBench.Plusargs

open Plusarg

/-- Names, each with what is to be given for it: nothing, the name alone, or a value. -/
abbrev Entries := List (String × Option (Option String))

def plusargs (entries : Entries) : List Plusarg :=
  entries.filterMap fun e => e.2.map (Plusarg.mk e.1)

theorem plusargs_cons (e : String × Option (Option String)) (entries : Entries) :
    plusargs (e :: entries) = (e.2.map (Plusarg.mk e.1)).toList ++ plusargs entries := by
  rw [plusargs, List.filterMap_cons]
  cases e.2 <;> rfl

theorem name_mem_of_mem_plusargs {entries : Entries} {p : Plusarg} (h : p ∈ plusargs entries) :
    p.name ∈ entries.map Prod.fst := by
  obtain ⟨e, he, hp⟩ := List.mem_filterMap.mp h
  obtain ⟨value, _, rfl⟩ := Option.map_eq_some_iff.mp hp
  exact List.mem_map_of_mem he

theorem filter_plusargs_of_notMem {entries : Entries} {name : String}
    (h : name ∉ entries.map Prod.fst) :
    (plusargs entries).filter (fun p => p.name == name) = [] := by
  apply List.filter_eq_nil_iff.mpr
  intro p hp hname
  exact h (eq_of_beq hname ▸ name_mem_of_mem_plusargs hp)

theorem filter_plusargs {entries : Entries} (h : (entries.map Prod.fst).Nodup)
    {e : String × Option (Option String)} (he : e ∈ entries) :
    (plusargs entries).filter (fun p => p.name == e.1) = (e.2.map (Plusarg.mk e.1)).toList := by
  induction entries with
  | nil => cases he
  | cons f rest ih =>
    rw [List.map_cons, List.nodup_cons] at h
    rw [plusargs_cons, List.filter_append]
    rcases List.mem_cons.mp he with rfl | hrest
    · rw [filter_plusargs_of_notMem h.1, List.append_nil]
      cases e.2 <;> simp
    · have hother : f.1 ≠ e.1 := fun hsame => h.1 (hsame ▸ List.mem_map_of_mem hrest)
      rw [ih h.2 hrest]
      cases f.2 <;> simp [hother]

theorem filter_names_text {ps : List Plusarg} (h : ∀ p ∈ ps, p.WellFormed) (name : String) :
    (ps.map text).filter (fun argument => Names name argument) =
      (ps.filter fun p => p.name == name).map text := by
  rw [List.filter_map]
  congr 1
  apply List.filter_congr
  intro p hp
  rw [Function.comp_apply, Bool.eq_iff_iff, decide_eq_true_iff, beq_iff_eq]
  exact names_text (h p hp) name

section Among

variable {entries : Entries} {arguments others : List String}
  (hnodup : (entries.map Prod.fst).Nodup) (hwell : ∀ p ∈ plusargs entries, p.WellFormed)
  (hothers : ∀ other ∈ others, ∀ name ∈ entries.map Prod.fst, ¬Names name other)
  (hperm : arguments.Perm ((plusargs entries).map text ++ others))
include hnodup hwell hothers hperm

theorem last?_given {e : String × Option (Option String)} (he : e ∈ entries) :
    last? ⟨arguments⟩ e.1 = e.2.map (Plusarg.mk e.1) := by
  have hnone : others.filter (fun other => Names e.1 other) = [] :=
    List.filter_eq_nil_iff.mpr fun other hother hnames =>
      hothers other hother e.1 (List.mem_map_of_mem he) (of_decide_eq_true hnames)
  have hsame := hperm.filter fun argument => Names e.1 argument
  rw [List.filter_append, hnone, List.append_nil, filter_names_text hwell,
    filter_plusargs hnodup he] at hsame
  rw [← last?_filter]
  cases hgiven : e.2 with
  | none =>
    rw [hgiven] at hsame
    rw [hsame.eq_nil]
    rfl
  | some value =>
    have hmem : ⟨e.1, value⟩ ∈ plusargs entries :=
      List.mem_filterMap.mpr ⟨e, he, by rw [hgiven]; rfl⟩
    rw [hgiven] at hsame
    rw [List.perm_singleton.mp hsame, last?_of_gives ⟨hwell _ hmem, rfl⟩]
    rfl

theorem has_given {name : String} {given : Option (Option String)} (he : (name, given) ∈ entries) :
    has ⟨arguments⟩ name = given.isSome := by
  rw [has, last?_given hnodup hwell hothers hperm he, Option.isSome_map]

theorem value?_given {name : String} {given : Option (Option String)}
    (he : (name, given) ∈ entries) : value? ⟨arguments⟩ name = given.join := by
  rw [value?, last?_given hnodup hwell hothers hperm he]
  cases given <;> rfl

end Among

end HexBench.Plusargs
