import HexBench.Proofs.Image.Delivered

set_option autoImplicit false

namespace HexBench

def Record.upperNumber? (r : Record) : Option Nat :=
  match r.payload with
  | [high, low] => some (256 * high.toNat + low.toNat)
  | _ => none

def Record.base? (r : Record) : Option Nat :=
  match r.kind with
  | .extendedSegmentAddress => r.upperNumber?.map (16 * ·)
  | .extendedLinearAddress => r.upperNumber?.map (65536 * ·)
  | _ => none

theorem Record.upperAddress?_toNat (r : Record) :
    r.upperAddress?.map UInt64.toNat = r.upperNumber? := by
  rw [upperAddress?, upperNumber?]
  rcases r.payload with _ | ⟨high, _ | ⟨low, _ | ⟨_, _⟩⟩⟩
  · rfl
  · rfl
  · exact congrArg some (Image.Verdict.upperAddress_toNat high low)
  · rfl

theorem Record.upperNumber?_lt {r : Record} {value : Nat} (h : r.upperNumber? = some value) :
    value < 65536 := by
  rw [upperNumber?] at h
  split at h
  · rename_i high low _
    have hhigh := high.toNat_lt
    have hlow := low.toNat_lt
    have hvalue := Option.some.inj h
    omega
  · cases h

namespace Image

open Bytes (Complete)

/-- The base that a line sets, if it holds an address record that is honoured. -/
def setsBase? (o : Options) (line : Bytes) : Option Nat :=
  match Record.parse line with
  | .ok r => if o.extendedRecords && o.accepts r then r.base? else none
  | .error _ => none

def baseBehind (o : Options) (ls : List Bytes) : Nat := (ls.reverse.findSome? (setsBase? o)).getD 0

namespace Verdict

def base? : Verdict → Option Nat
  | base address => some address.toNat
  | _ => none

theorem nextBase_toNat (v : Verdict) (current : UInt64) :
    (v.nextBase current).toNat = v.base?.getD current.toNat := by
  cases v <;> rfl

theorem base?_ofAddress (r : Record) {shift : UInt64} (hshift : shift.toNat ≤ 16) :
    (ofAddress r shift).base? = r.upperNumber?.map (2 ^ shift.toNat * ·) := by
  have hnumber := r.upperAddress?_toNat
  rw [ofAddress]
  cases hvalue : r.upperAddress? with
  | none =>
    rw [hvalue] at hnumber
    rw [← hnumber]
    rfl
  | some value =>
    rw [hvalue, Option.map_some] at hnumber
    have hsmall := Record.upperNumber?_lt hnumber.symm
    have hpow : 2 ^ shift.toNat ≤ 2 ^ 16 := Nat.pow_le_pow_right (by decide) hshift
    have hfits : value.toNat * 2 ^ shift.toNat < 2 ^ 64 :=
      Nat.lt_of_le_of_lt (Nat.mul_le_mul_left _ hpow) (by omega)
    rw [← hnumber, Option.map_some]
    simp only [base?, UInt64.toNat_shiftLeft, Nat.shiftLeft_eq]
    rw [Nat.mod_eq_of_lt (show shift.toNat < 64 by omega), Nat.mod_eq_of_lt hfits, Nat.mul_comm]

theorem base?_ofKind (o : Options) (r : Record) :
    (ofKind o r).base? = if o.extendedRecords then r.base? else none := by
  have hsegment : (ofAddress r 4).base? = r.upperNumber?.map (16 * ·) :=
    base?_ofAddress r (by decide)
  have hlinear : (ofAddress r 16).base? = r.upperNumber?.map (65536 * ·) :=
    base?_ofAddress r (by decide)
  rw [ofKind, Record.base?]
  cases o.extendedRecords with
  | false => cases r.kind <;> rfl
  | true =>
    cases r.kind with
    | extendedSegmentAddress => exact hsegment
    | extendedLinearAddress => exact hlinear
    | _ => rfl

theorem base?_ofLine (o : Options) (line : Bytes) : (ofLine o line).base? = setsBase? o line := by
  rw [setsBase?]
  cases hparse : Record.parse line with
  | ok r =>
    rw [ofLine_of_parse o hparse, ofRecord_eq]
    dsimp only
    cases o.accepts r with
    | true => rw [if_pos rfl, base?_ofKind, Bool.and_true]
    | false =>
      rw [if_neg Bool.false_ne_true, Bool.and_false]
      rfl
  | error e =>
    by_cases hstart : line.head? = some Record.startCode
    · rw [ofLine_of_error o hstart hparse]
      rfl
    · rw [ofLine_of_other o hstart]
      rfl

end Verdict

namespace Load

theorem isBase_run (o : Options) (ls : List Bytes) (number : Nat) {l : Load} (hl : IsBase l.base) :
    IsBase (run o number ls l).base := by
  induction ls generalizing number l with
  | nil => exact hl
  | cons line ls ih =>
    rw [run]
    split
    · exact hl
    · apply ih
      rw [apply_base]
      exact nextBase_isBase (Verdict.ofLine_sound o line) hl

theorem base_run {o : Options} {ls : List Bytes} (hgoes : ls.any (isEnd o) = false) (number : Nat)
    {l : Load} (hl : l.stopped = false) : (run o number ls l).base.toNat =
      (ls.reverse.findSome? (setsBase? o)).getD l.base.toNat := by
  induction ls generalizing number l with
  | nil => rfl
  | cons line ls ih =>
    rw [List.any_cons, Bool.or_eq_false_iff] at hgoes
    have hstopped : (l.apply number (.ofLine o line)).stopped = false := by
      rw [apply_stopped, Verdict.stops_ofLine, hgoes.1, hl]
      rfl
    rw [run, if_neg (by simp [hl]), ih hgoes.2 (number + 1) hstopped, apply_base,
      Verdict.nextBase_toNat, Verdict.base?_ofLine, List.reverse_cons, List.findSome?_append,
      List.findSome?_singleton, Option.getD_or]

end Load

/-- Behind lines that are ended and that do not end the load, a load puts the words of the records
that it still applies into the memory so far, counted from the base so far. -/
theorem load_behind {o : Options} {front : Bytes} (hended : Complete front)
    (hgoes : front.lines.all.any (isEnd o) = false) (text : Bytes) (memory : Memory) :
    let l := Load.run o 1 front.lines.all { memory }
    let vs := verdicts o text.lines.all
    let whole := load o ⟨front ++ text, none⟩ memory
    whole.memory = l.memory.putAll ((placed l.base vs).flatMap Placed.writes) ∧
      whole.result = .ok (l.summary.plus (tally l.memory.size (placed l.base vs) vs)) := by
  intro l vs whole
  have hstopped : l.stopped = false := by
    rw [Load.stopped_run, hgoes]
    rfl
  have hrun : Load.run o 1 (Source.mk (front ++ text) none).lines { memory } =
      Load.run o (1 + front.lines.all.length) text.lines.all l := by
    rw [Source.lines, Bytes.all_lines_append hended, Load.run_append]
  obtain ⟨hmemory, hsummary⟩ := Load.run_eq o text.lines.all (1 + front.lines.all.length) l hstopped
    (Load.isBase_run o _ 1 isBase_zero)
  simp only [whole, load, hrun]
  exact ⟨hmemory, congrArg Except.ok hsummary⟩

theorem setsBase?_of_plain {o : Options} (h : o.extendedRecords = false) (line : Bytes) :
    setsBase? o line = none := by
  rw [setsBase?, h]
  split <;> rfl

theorem placed_eq_flatMap {vs : List Verdict} (h : ∀ v ∈ vs, v.base? = none) (current : UInt64) :
    placed current vs = vs.flatMap (Verdict.places current) := by
  induction vs with
  | nil => rfl
  | cons v vs ih =>
    have hv : v.nextBase current = current := by
      apply UInt64.toNat_inj.mp
      rw [v.nextBase_toNat, h v List.mem_cons_self]
      rfl
    rw [placed, hv, ih fun u hu => h u (List.mem_cons_of_mem v hu), List.flatMap_cons]

theorem base?_of_mem_verdicts {o : Options} {ls : List Bytes}
    (h : ∀ line ∈ ls, setsBase? o line = none) : ∀ v ∈ verdicts o ls, v.base? = none := by
  intro v hv
  obtain ⟨line, hline, rfl⟩ := List.mem_map.mp (mem_of_mem_heard hv)
  rw [Verdict.base?_ofLine, h line hline]

/-- A text can be loaded in two parts, cut where a line ends, if the first part leaves the base at
zero and does not end the load. The second part then finds the memory that the first one left, and
the counts add up. Where extended records are passed over, this holds of any two parts. -/
theorem load_append {o : Options} {front : Bytes} (hended : Complete front)
    (hfresh : o.extendedRecords = false ∨
      front.lines.all.any (isEnd o) = false ∧ baseBehind o front.lines.all = 0)
    (text : Bytes) (memory : Memory) :
    let first := load o ⟨front, none⟩ memory
    let second := load o ⟨text, none⟩ first.memory
    let whole := load o ⟨front ++ text, none⟩ memory
    whole.memory = second.memory ∧ ∃ s t, first.result = .ok s ∧ second.result = .ok t ∧
      whole.result = .ok (s.plus t) := by
  intro first second whole
  have hbehind : front.lines.all.any (isEnd o) = false ∧ baseBehind o front.lines.all = 0 := by
    rcases hfresh with hplain | hfresh
    · have hnone : front.lines.all.reverse.findSome? (setsBase? o) = none :=
        List.findSome?_eq_none_iff.mpr fun line _ => setsBase?_of_plain hplain line
      have hgoes : ∀ line ∈ front.lines.all, isEnd o line = false := fun line _ =>
        isEnd_of_plain hplain line
      exact ⟨by simpa using hgoes, by rw [baseBehind, hnone]; rfl⟩
    · exact hfresh
  obtain ⟨hgoes, hzero⟩ := hbehind
  have hbase : (Load.run o 1 front.lines.all { memory }).base = 0 :=
    UInt64.toNat_inj.mp ((Load.base_run hgoes 1 rfl).trans hzero)
  obtain ⟨hmemory, hresult⟩ := load_behind hended hgoes text memory
  obtain ⟨hmemory', hresult'⟩ := load_text o text first.memory
  rw [hbase] at hmemory hresult
  exact ⟨hmemory.trans hmemory'.symm, _, _, rfl, hresult', hresult⟩

/-- The first part moves the base away and back to zero, and one word of it falls outside. -/
theorem load_append_base_reset :
    let o : Options := ⟨true, true⟩
    let front := Bytes.ofString ":020000040001F9\n:0400000001000000FB\n:020000020000FC\n"
    let text := Bytes.ofString ":0400040002000000F6\n:00000001FF"
    let whole := load o ⟨front ++ text, none⟩ #[7, 7]
    Complete front ∧ front.lines.all.any (isEnd o) = false ∧ baseBehind o front.lines.all = 0 ∧
      whole.memory = #[7, 2] ∧ whole.result = .ok { records := 2, written := 1, dropped := 1 } := by
  intro o front text whole
  have hended : Complete front := fun _ hb => (Option.some.inj hb).symm
  have hgoes : front.lines.all.any (isEnd o) = false := by decide +kernel
  have hzero : baseBehind o front.lines.all = 0 := by decide +kernel
  obtain ⟨hmemory, s, t, hfirst, hsecond, hwhole⟩ :=
    load_append hended (.inr ⟨hgoes, hzero⟩) text #[7, 7]
  have hs : s = { records := 1, dropped := 1 } :=
    Except.ok.inj (hfirst.symm.trans (by decide +kernel))
  have ht : t = { records := 1, written := 1 } :=
    Except.ok.inj (hsecond.symm.trans (by decide +kernel))
  subst hs ht
  exact ⟨hended, hgoes, hzero, hmemory.trans (by decide +kernel), hwhole⟩

end Image
end HexBench
