import HexBench.Record
import Mathlib.Algebra.Group.Nat.Defs

set_option autoImplicit false

namespace HexBench

def byteOf (w : UInt32) (j : Nat) : UInt8 := UInt8.ofNat (w.toNat / 256 ^ j)

def wordBytes (w : UInt32) : Bytes := (List.range 4).map (byteOf w)

def wordCount (n : Nat) : Nat := (n + 3) / 4

/-- The word of a payload at a place, filled with zeros where the payload ends inside it. -/
def wordAt (s : Bytes) (i : Nat) : UInt32 := littleEndian ((s.drop (4 * i)).take 4)

theorem littleEndian_cons_toNat (b : UInt8) (s : Bytes) (h : (littleEndian s).toNat < 2 ^ 24) :
    (littleEndian (b :: s)).toNat = b.toNat + 256 * (littleEndian s).toNat := by
  have hb : b.toNat < 2 ^ 8 := b.toNat_lt
  simp only [littleEndian, UInt32.toNat_or, UInt32.toNat_shiftLeft, UInt8.toNat_toUInt32,
    UInt32.reduceToNat, Nat.reduceMod, Nat.shiftLeft_eq]
  rw [Nat.mod_eq_of_lt (by omega), Nat.mul_comm, Nat.or_comm, ← Nat.two_pow_add_eq_or_of_lt hb]
  omega

theorem littleEndian_toNat_lt (s : Bytes) (h : s.length ≤ 4) :
    (littleEndian s).toNat < 256 ^ s.length := by
  induction s with
  | nil => simp [littleEndian]
  | cons b s ih =>
    simp only [List.length_cons] at h
    have hs := ih (by omega)
    have hsmall : 256 ^ s.length ≤ 256 ^ 3 := Nat.pow_le_pow_right (by omega) (by omega)
    have hb := b.toNat_lt
    rw [littleEndian_cons_toNat b s (by omega), List.length_cons, Nat.pow_succ]
    omega

theorem byteOf_littleEndian (s : Bytes) (h : s.length ≤ 4) (j : Nat) :
    byteOf (littleEndian s) j = s.getD j 0 := by
  induction s generalizing j with
  | nil => simp [littleEndian, byteOf]
  | cons b s ih =>
    simp only [List.length_cons] at h
    have hs := littleEndian_toNat_lt s (by omega)
    have hsmall : 256 ^ s.length ≤ 256 ^ 3 := Nat.pow_le_pow_right (by omega) (by omega)
    have hb := b.toNat_lt
    cases j with
    | zero =>
      apply UInt8.toNat_inj.mp
      simp only [byteOf, Nat.pow_zero, Nat.div_one, UInt8.toNat_ofNat', List.getD_cons_zero]
      rw [littleEndian_cons_toNat b s (by omega)]
      omega
    | succ j =>
      have hdiv : (b.toNat + 256 * (littleEndian s).toNat) / 256 = (littleEndian s).toNat := by
        omega
      rw [List.getD_cons_succ, ← ih (by omega) j, byteOf, byteOf,
        littleEndian_cons_toNat b s (by omega), Nat.pow_succ, Nat.mul_comm (256 ^ j),
        ← Nat.div_div_eq_div_mul, hdiv]

theorem wordBytes_length (w : UInt32) : (wordBytes w).length = 4 := rfl

theorem littleEndian_wordBytes (w : UInt32) : littleEndian (wordBytes w) = w := by
  have hw := w.toNat_lt
  apply UInt32.toNat_inj.mp
  have hlt : ∀ s : Bytes, s.length ≤ 3 → (littleEndian s).toNat < 2 ^ 24 := by
    intro s hs
    have hpow : 256 ^ s.length ≤ 256 ^ 3 := Nat.pow_le_pow_right (by omega) hs
    exact Nat.lt_of_lt_of_le (littleEndian_toNat_lt s (by omega)) hpow
  change (littleEndian [byteOf w 0, byteOf w 1, byteOf w 2, byteOf w 3]).toNat = w.toNat
  rw [littleEndian_cons_toNat _ _ (hlt _ (by simp)), littleEndian_cons_toNat _ _ (hlt _ (by simp)),
    littleEndian_cons_toNat _ _ (hlt _ (by simp)), littleEndian_cons_toNat _ _ (hlt _ (by simp))]
  simp only [byteOf, UInt8.toNat_ofNat', littleEndian, UInt32.toNat_zero]
  omega

theorem byteOf_wordAt (s : Bytes) (i j : Nat) (hj : j < 4) :
    byteOf (wordAt s i) j = s.getD (4 * i + j) 0 := by
  rw [wordAt, byteOf_littleEndian _ (by simp only [List.length_take]; omega)]
  simp only [List.getD_eq_getElem?_getD, List.getElem?_take, List.getElem?_drop, hj, if_true]

theorem wordAt_zero_append (w : UInt32) (s : Bytes) : wordAt (wordBytes w ++ s) 0 = w := by
  rw [wordAt, Nat.mul_zero, List.drop_zero, ← wordBytes_length w, List.take_left]
  exact littleEndian_wordBytes w

theorem wordAt_succ_append (w : UInt32) (s : Bytes) (i : Nat) :
    wordAt (wordBytes w ++ s) (i + 1) = wordAt s i := by
  have h : 4 * (i + 1) = (wordBytes w).length + 4 * i := by
    rw [wordBytes_length]
    omega
  rw [wordAt, h, List.drop_length_add_append]
  rfl

theorem flatMap_wordBytes_length (ws : List UInt32) :
    (ws.flatMap wordBytes).length = 4 * ws.length := by
  induction ws with
  | nil => rfl
  | cons w ws ih =>
    rw [List.flatMap_cons, List.length_append, wordBytes_length, ih, List.length_cons]
    omega

theorem wordAt_flatMap (ws : List UInt32) (i : Nat) (hi : i < ws.length) :
    wordAt (ws.flatMap wordBytes) i = ws[i] := by
  induction ws generalizing i with
  | nil => simp at hi
  | cons w ws ih =>
    rw [List.flatMap_cons]
    cases i with
    | zero => exact wordAt_zero_append w _
    | succ i =>
      rw [wordAt_succ_append]
      exact ih i (by simpa using hi)

theorem short_length {short : Bytes} (hnil : short ≠ [])
    (hlong : ∀ a b c d rest, short ≠ a :: b :: c :: d :: rest) :
    1 ≤ short.length ∧ short.length ≤ 3 := by
  match short with
  | [] => exact absurd rfl hnil
  | [_] | [_, _] | [_, _, _] => simp
  | a :: b :: c :: d :: rest => exact absurd rfl (hlong a b c d rest)

theorem wordsFrom_eq (offset : Nat) (s : Bytes) :
    wordsFrom offset s =
      (List.range (wordCount s.length)).map fun i => (offset + 4 * i, wordAt s i) := by
  fun_induction wordsFrom offset s with
  | case1 offset => rfl
  | case2 offset a b c d rest ih =>
    have hcount : wordCount (a :: b :: c :: d :: rest).length = wordCount rest.length + 1 := by
      simp only [wordCount, List.length_cons]
      omega
    have hstep : ∀ i, wordAt (a :: b :: c :: d :: rest) (i + 1) = wordAt rest i := fun _ => rfl
    rw [hcount, List.range_succ_eq_map, List.map_cons, List.map_map, ih]
    congr 1
    apply List.map_congr_left
    intro i _
    simp only [Function.comp_apply, hstep, Nat.mul_succ, Nat.add_assoc, Nat.add_comm 4]
  | case3 offset short hnil hlong =>
    have hshort := short_length hnil hlong
    have hcount : wordCount short.length = 1 := by
      unfold wordCount
      omega
    have hword : wordAt short 0 = littleEndian short := by
      rw [wordAt, Nat.mul_zero, List.drop_zero, List.take_of_length_le (by omega)]
    rw [hcount, List.range_one, List.map_singleton, hword]
    rfl

theorem wordBytes_littleEndian {s : Bytes} (h : s.length ≤ 4) :
    wordBytes (littleEndian s) = s ++ List.replicate (4 - s.length) 0 := by
  apply List.ext_getElem
  · rw [wordBytes_length, List.length_append, List.length_replicate]
    omega
  · intro j hj hj'
    simp only [wordBytes, List.getElem_map, List.getElem_range, byteOf_littleEndian s h j,
      List.getD_eq_getElem?_getD]
    by_cases hin : j < s.length
    · rw [List.getElem_append_left hin, List.getElem?_eq_getElem hin, Option.getD_some]
    · rw [List.getElem_append_right (by omega), List.getElem_replicate,
        List.getElem?_eq_none (by omega), Option.getD_none]

theorem flatMap_wordBytes_wordsFrom (offset : Nat) (s : Bytes) :
    ((wordsFrom offset s).map Prod.snd).flatMap wordBytes =
      s ++ List.replicate (4 * wordCount s.length - s.length) 0 := by
  fun_induction wordsFrom offset s with
  | case1 offset => rfl
  | case2 offset a b c d rest ih =>
    have hzeros : 4 * wordCount (a :: b :: c :: d :: rest).length -
        (a :: b :: c :: d :: rest).length = 4 * wordCount rest.length - rest.length := by
      simp only [wordCount, List.length_cons]
      omega
    have hgroup : wordBytes (littleEndian [a, b, c, d]) = [a, b, c, d] :=
      wordBytes_littleEndian (Nat.le_refl 4)
    rw [List.map_cons, List.flatMap_cons, hgroup, ih, hzeros]
    rfl
  | case3 offset short hnil hlong =>
    obtain ⟨hpos, hshort⟩ := short_length hnil hlong
    have hzeros : 4 * wordCount short.length - short.length = 4 - short.length := by
      unfold wordCount
      omega
    rw [List.map_singleton, List.flatMap_singleton, wordBytes_littleEndian (by omega), hzeros]

/-- The words of a payload of any length: one for every four bytes begun, at the offsets 0, 4, 8 and
so on. Their bytes are the payload with fewer than four zeros behind it, so it is recovered from the
words and its length. The length that the header announces has no part in this. -/
theorem Record.words_regroup (r : Record) :
    r.words.map Prod.fst = (List.range ((r.payload.length + 3) / 4)).map (4 * ·) ∧
    (∃ zeros < 4, (r.words.map Prod.snd).flatMap wordBytes =
      r.payload ++ List.replicate zeros 0) ∧
    ((r.words.map Prod.snd).flatMap wordBytes).take r.payload.length = r.payload := by
  have hbytes := flatMap_wordBytes_wordsFrom 0 r.payload
  refine ⟨?_, ⟨4 * wordCount r.payload.length - r.payload.length, ?_, hbytes⟩, ?_⟩
  · rw [words, wordsFrom_eq, List.map_map]
    apply List.map_congr_left
    intro i _
    exact Nat.zero_add (4 * i)
  · unfold wordCount
    omega
  · rw [words, hbytes, List.take_left]

end HexBench
