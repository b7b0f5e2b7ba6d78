import HexBench.Image.Load
import HexBench.Proofs.Record.Words

set_option autoImplicit false

namespace HexBench.Memory

def put (m : Memory) (w : Nat × UInt32) : Memory := m.setIfInBounds w.1 w.2

def putAll (m : Memory) (ws : List (Nat × UInt32)) : Memory := ws.foldl put m

def lastWord? (ws : List (Nat × UInt32)) (i : Nat) : Option UInt32 := ws.reverse.lookup i

/-- The byte at a byte address, the lowest byte of a word first. -/
def byte? (m : Memory) (x : Nat) : Option UInt8 := m[x / 4]?.map fun w => byteOf w (x % 4)

theorem size_put (m : Memory) (w : Nat × UInt32) : (m.put w).size = m.size :=
  Array.size_setIfInBounds

theorem putAll_cons (m : Memory) (w : Nat × UInt32) (ws : List (Nat × UInt32)) :
    m.putAll (w :: ws) = (m.put w).putAll ws := rfl

theorem putAll_append (m : Memory) (xs ys : List (Nat × UInt32)) :
    m.putAll (xs ++ ys) = (m.putAll xs).putAll ys := List.foldl_append

theorem size_putAll (m : Memory) (ws : List (Nat × UInt32)) : (m.putAll ws).size = m.size := by
  induction ws generalizing m with
  | nil => rfl
  | cons w ws ih =>
    rw [putAll_cons, ih, size_put]

theorem lastWord?_append (xs ys : List (Nat × UInt32)) (i : Nat) :
    lastWord? (xs ++ ys) i = (lastWord? ys i).or (lastWord? xs i) := by
  rw [lastWord?, List.reverse_append, List.lookup_append]
  rfl

theorem lastWord?_singleton (w : Nat × UInt32) (i : Nat) :
    lastWord? [w] i = if w.1 = i then some w.2 else none := by
  obtain ⟨j, w⟩ := w
  by_cases h : j = i
  · subst h
    rw [lastWord?, List.reverse_singleton, List.lookup_cons_self, if_pos rfl]
  · have hne : (i == j) = false := by simpa using Ne.symm h
    rw [lastWord?, List.reverse_singleton, List.lookup_cons, hne, if_neg h]
    rfl

theorem lastWord?_cons (w : Nat × UInt32) (ws : List (Nat × UInt32)) (i : Nat) :
    lastWord? (w :: ws) i = (lastWord? ws i).or (if w.1 = i then some w.2 else none) := by
  rw [← List.singleton_append, lastWord?_append, lastWord?_singleton]

theorem lastWord?_eq_none_iff (ws : List (Nat × UInt32)) (i : Nat) :
    lastWord? ws i = none ↔ i ∉ ws.map Prod.fst := by
  induction ws with
  | nil => simp [lastWord?]
  | cons w ws ih =>
    rw [lastWord?_cons, Option.or_eq_none_iff, ih, List.map_cons, List.mem_cons, not_or, and_comm]
    by_cases h : w.1 = i
    · simp [h]
    · simp [h, Ne.symm h]

theorem lastWord?_of_last {before after : List (Nat × UInt32)} {i : Nat} {w : UInt32}
    (h : i ∉ after.map Prod.fst) : lastWord? (before ++ (i, w) :: after) i = some w := by
  rw [lastWord?_append, lastWord?_cons, (lastWord?_eq_none_iff after i).mpr h, if_pos rfl]
  rfl

theorem getElem?_put (m : Memory) (w : Nat × UInt32) (i : Nat) :
    (m.put w)[i]? = m[i]?.map fun old => (if w.1 = i then some w.2 else none).getD old := by
  rw [put, Array.getElem?_setIfInBounds]
  by_cases h : w.1 = i
  · subst h
    by_cases hi : w.1 < m.size
    · simp [hi]
    · simp [hi]
  · simp [h]

theorem getElem?_putAll (m : Memory) (ws : List (Nat × UInt32)) (i : Nat) :
    (m.putAll ws)[i]? = m[i]?.map fun old => (lastWord? ws i).getD old := by
  induction ws generalizing m with
  | nil => simp [putAll, lastWord?]
  | cons w ws ih =>
    rw [putAll_cons, ih, getElem?_put, Option.map_map]
    congr 1
    funext old
    rw [lastWord?_cons, Function.comp_apply]
    cases lastWord? ws i <;> rfl

theorem putAll_putAll (m : Memory) (ws : List (Nat × UInt32)) :
    (m.putAll ws).putAll ws = m.putAll ws := by
  apply Array.ext_getElem?
  intro i
  rw [getElem?_putAll, getElem?_putAll, Option.map_map]
  congr 1
  funext old
  cases h : lastWord? ws i <;> simp

theorem putAll_inside (m : Memory) (ws : List (Nat × UInt32)) :
    m.putAll (ws.filter fun w => w.1 < m.size) = m.putAll ws := by
  induction ws generalizing m with
  | nil => rfl
  | cons w ws ih =>
    rw [putAll_cons]
    by_cases hw : w.1 < m.size
    · rw [List.filter_cons_of_pos (by simpa using hw), putAll_cons, ← ih, size_put]
    · have hput : m.put w = m := Array.setIfInBounds_eq_of_size_le (Nat.le_of_not_lt hw)
      rw [List.filter_cons_of_neg (by simpa using hw), ih, hput]

end HexBench.Memory
