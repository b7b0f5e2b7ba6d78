import HexBench.Image.Load
import HexBench.Proofs.Record.Parse
import HexBench.Proofs.Record.Words

set_option autoImplicit false

/-!
# The records that a load applies

What a load does is fixed by the verdicts on its lines up to the first one that stops it. The data
records among them, each with the base in force at it, are the records that the load applies.
-/

namespace HexBench.Image

/-- A base that an address record can set: a 16-bit number times 16 or times 65536. -/
def IsBase (base : UInt64) : Prop :=
  ∃ v < 2 ^ 16, base.toNat = 16 * v ∨ base.toNat = 65536 * v

theorem isBase_zero : IsBase 0 := ⟨0, by decide, .inl rfl⟩

namespace IsBase

variable {base : UInt64}

theorem le (h : IsBase base) : base.toNat ≤ 0xFFFF0000 := by
  rcases h with ⟨v, hv, h | h⟩ <;> omega

theorem mod_four (h : IsBase base) : base.toNat % 4 = 0 := by
  rcases h with ⟨v, hv, h | h⟩ <;> omega

theorem add_toNat (h : IsBase base) (address : UInt16) :
    (base + address.toUInt64).toNat = base.toNat + address.toNat := by
  have hbase := h.le
  have haddress := address.toNat_lt
  rw [UInt64.toNat_add, UInt16.toNat_toUInt64, Nat.mod_eq_of_lt (by omega)]

theorem sum_toNat (h : IsBase base) (address : UInt16) {offset : Nat} (hoffset : offset < 256) :
    (base + address.toUInt64 + offset.toUInt64).toNat =
      base.toNat + address.toNat + offset := by
  have hbase := h.le
  have haddress := address.toNat_lt
  rw [UInt64.toNat_add, h.add_toNat, Nat.toUInt64_eq, UInt64.toNat_ofNat', Nat.add_mod_mod,
    Nat.mod_eq_of_lt (by omega)]

theorem wordIndex_toNat (h : IsBase base) (address : UInt16) {offset : Nat}
    (hoffset : offset < 256) :
    (Load.wordIndex (base + address.toUInt64) offset).toNat =
      (base.toNat + address.toNat + offset) / 4 := by
  rw [Load.wordIndex, UInt64.toNat_shiftRight, h.sum_toNat address hoffset]
  exact Nat.shiftRight_eq_div_pow _ 2

end IsBase

def Load.indexed (address : UInt64) (words : List (Nat × UInt32)) : List (Nat × UInt32) :=
  words.map fun w => ((Load.wordIndex address w.1).toNat, w.2)

structure Placed where
  base : UInt64
  record : Record

namespace Placed

def address (p : Placed) : Nat := p.base.toNat + p.record.address.toNat

def writes (p : Placed) : List (Nat × UInt32) :=
  (List.range (wordCount p.record.payload.length)).map fun i =>
    (p.address / 4 + i, wordAt p.record.payload i)

/-- What every record that was read from a line keeps to. -/
structure Fits (p : Placed) : Prop where
  base : IsBase p.base
  payload : p.record.payload.length < 256

theorem writes_indices (p : Placed) :
    p.writes.map Prod.fst = List.range' (p.address / 4) (wordCount p.record.payload.length) := by
  rw [writes, List.map_map, List.range'_eq_map_range]
  rfl

theorem writes_words (p : Placed) : p.writes.map Prod.snd = p.record.words.map Prod.snd := by
  rw [writes, Record.words, wordsFrom_eq, List.map_map, List.map_map]
  rfl

theorem Fits.wordIndex {p : Placed} (h : p.Fits) (i : Nat)
    (hi : i < wordCount p.record.payload.length) :
    (Load.wordIndex (p.base + p.record.address.toUInt64) (4 * i)).toNat = p.address / 4 + i := by
  have hpayload := h.payload
  have hsmall : 4 * i < 256 := by
    unfold wordCount at hi
    omega
  rw [h.base.wordIndex_toNat _ hsmall, address]
  omega

theorem Fits.indexed_words {p : Placed} (h : p.Fits) :
    Load.indexed (p.base + p.record.address.toUInt64) p.record.words = p.writes := by
  rw [Load.indexed, Record.words, wordsFrom_eq, List.map_map, writes]
  apply List.map_congr_left
  intro i hi
  rw [Function.comp_apply, Nat.zero_add, h.wordIndex i (List.mem_range.mp hi)]

end Placed

namespace Verdict

def stops : Verdict → Bool
  | endOfFile => true
  | _ => false

def nextBase (current : UInt64) : Verdict → UInt64
  | base address => address
  | _ => current

def places (current : UInt64) : Verdict → List Placed
  | data r => [⟨current, r⟩]
  | _ => []

/-- What the verdict on a line keeps to, whatever the line. -/
def Sound (o : Options) : Verdict → Prop
  | base address => o.extendedRecords = true ∧ IsBase address
  | data r => r.payload.length < 256
  | _ => True

theorem upperAddress_toNat (high low : UInt8) :
    (high.toUInt64 <<< 8 ||| low.toUInt64).toNat = 256 * high.toNat + low.toNat := by
  have hhigh := high.toNat_lt
  have hlow : low.toNat < 2 ^ 8 := low.toNat_lt
  simp only [UInt64.toNat_or, UInt64.toNat_shiftLeft, UInt8.toNat_toUInt64, UInt64.reduceToNat,
    Nat.reduceMod, Nat.shiftLeft_eq]
  rw [Nat.mod_eq_of_lt (by omega), Nat.mul_comm, ← Nat.two_pow_add_eq_or_of_lt hlow]

theorem ofAddress_sound (o : Options) (ho : o.extendedRecords = true) (r : Record) (shift : UInt64)
    (hshift : shift = 4 ∨ shift = 16) : (ofAddress r shift).Sound o := by
  unfold ofAddress Record.upperAddress?
  split
  · rename_i value hvalue
    split at hvalue
    · rename_i high low hpayload
      simp only [Option.some.injEq] at hvalue
      have hhigh := high.toNat_lt
      have hlow := low.toNat_lt
      have hnat := upperAddress_toNat high low
      rw [hvalue] at hnat
      refine ⟨ho, value.toNat, by omega, ?_⟩
      rcases hshift with rfl | rfl
      · left
        simp only [UInt64.toNat_shiftLeft, UInt64.reduceToNat, Nat.reduceMod, Nat.shiftLeft_eq]
        omega
      · right
        simp only [UInt64.toNat_shiftLeft, UInt64.reduceToNat, Nat.reduceMod, Nat.shiftLeft_eq]
        omega
    · cases hvalue
  · trivial

theorem ofKind_sound (o : Options) (r : Record) (hr : r.payload.length < 256) :
    (ofKind o r).Sound o := by
  unfold ofKind
  split
  · exact hr
  · split <;> trivial
  · split
    · exact ofAddress_sound o ‹_› r 4 (.inl rfl)
    · trivial
  · split
    · exact ofAddress_sound o ‹_› r 16 (.inr rfl)
    · trivial
  · trivial

theorem ofLine_sound (o : Options) (line : Bytes) : (ofLine o line).Sound o := by
  unfold ofLine
  split
  · split
    · rename_i r hr
      have hlength := Record.payload_length_of_parse hr
      have hbyte := r.length.toNat_lt
      unfold ofRecord
      split
      · trivial
      · exact ofKind_sound o r (by omega)
    · trivial
  · trivial

end Verdict

/-- The verdicts that a load comes to: none behind the first that stops it. -/
def heard : List Verdict → List Verdict
  | [] => []
  | v :: rest => if v.stops then [v] else v :: heard rest

def placed (current : UInt64) : List Verdict → List Placed
  | [] => []
  | v :: rest => v.places current ++ placed (v.nextBase current) rest

theorem nextBase_isBase {o : Options} {v : Verdict} (hv : v.Sound o) {current : UInt64}
    (h : IsBase current) : IsBase (v.nextBase current) := by
  cases v with
  | base address => exact hv.2
  | _ => exact h

theorem places_fits {o : Options} {v : Verdict} (hv : v.Sound o) {current : UInt64}
    (h : IsBase current) : ∀ p ∈ v.places current, p.Fits := by
  cases v with
  | data r =>
    intro p hp
    rw [List.mem_singleton.mp hp]
    exact ⟨h, hv⟩
  | _ => exact List.forall_mem_nil _

theorem mem_of_mem_heard {v : Verdict} {vs : List Verdict} (h : v ∈ heard vs) : v ∈ vs := by
  induction vs with
  | nil => exact h
  | cons w rest ih =>
    rw [heard] at h
    split at h
    · exact List.mem_cons.mpr (.inl (List.mem_singleton.mp h))
    · exact (List.mem_cons.mp h).elim (fun e => List.mem_cons.mpr (.inl e))
        fun h => List.mem_cons_of_mem w (ih h)

theorem placed_fits {o : Options} {vs : List Verdict} (hvs : ∀ v ∈ vs, v.Sound o) {current : UInt64}
    (h : IsBase current) : ∀ p ∈ placed current vs, p.Fits := by
  induction vs generalizing current with
  | nil => exact List.forall_mem_nil _
  | cons v rest ih =>
    have hv := hvs v List.mem_cons_self
    intro p hp
    rcases List.mem_append.mp hp with hp | hp
    · exact places_fits hv h p hp
    · exact ih (fun w hw => hvs w (List.mem_cons_of_mem v hw)) (nextBase_isBase hv h) p hp

theorem placed_base {o : Options} (ho : o.extendedRecords = false) {vs : List Verdict}
    (hvs : ∀ v ∈ vs, v.Sound o) (current : UInt64) : ∀ p ∈ placed current vs, p.base = current := by
  induction vs with
  | nil => exact List.forall_mem_nil _
  | cons v rest ih =>
    have hrest := ih fun w hw => hvs w (List.mem_cons_of_mem v hw)
    have hv := hvs v List.mem_cons_self
    intro p hp
    cases v with
    | base address => simp [Verdict.Sound, ho] at hv
    | data r =>
      rcases List.mem_cons.mp hp with rfl | hp
      · rfl
      · exact hrest p hp
    | _ => exact hrest p hp

def verdicts (o : Options) (lines : List Bytes) : List Verdict :=
  heard (lines.map (Verdict.ofLine o))

def applied (o : Options) (text : Bytes) : List Placed := placed 0 (verdicts o text.lines.all)

theorem verdicts_cons (o : Options) (line : Bytes) (rest : List Bytes) :
    verdicts o (line :: rest) =
      if (Verdict.ofLine o line).stops then [Verdict.ofLine o line]
      else Verdict.ofLine o line :: verdicts o rest := rfl

theorem verdicts_sound (o : Options) (lines : List Bytes) : ∀ v ∈ verdicts o lines, v.Sound o := by
  intro v hv
  obtain ⟨line, _, rfl⟩ := List.mem_map.mp (mem_of_mem_heard hv)
  exact Verdict.ofLine_sound o line

theorem applied_fits (o : Options) (text : Bytes) : ∀ p ∈ applied o text, p.Fits :=
  placed_fits (verdicts_sound o _) isBase_zero

def writes (o : Options) (text : Bytes) : List (Nat × UInt32) :=
  (applied o text).flatMap Placed.writes

end HexBench.Image
