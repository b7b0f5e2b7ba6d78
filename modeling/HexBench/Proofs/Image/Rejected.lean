import HexBench.Proofs.Image.Unapplied
import HexBench.Proofs.Record.Corruption

set_option autoImplicit false

namespace HexBench

open Bytes (lineFeed LinePlace)

theorem Record.Garbled.head? {r : Record} {line line' : Bytes} (h : r.Garbled line line') :
    line'.head? = line.head? := by
  cases h with
  | @intro front back _ _ _ _ field hfront _ _ _ _ _ =>
    cases front with
    | nil =>
      rw [List.length_nil] at hfront
      omega
    | cons c front => rfl

theorem Record.Garbled.lineFeed_notMem {r : Record} {line line' : Bytes} (h : r.Garbled line line')
    (hline : lineFeed ∉ line) : lineFeed ∉ line' := by
  cases h with
  | intro field _ _ _ _ hhigh hlow =>
    simp only [List.mem_append, List.mem_cons, not_or] at hline ⊢
    exact ⟨hline.1, Ne.symm hhigh, Ne.symm hlow, hline.2.2.2⟩

namespace Image

theorem isMalformed_of_checksum {o : Options} (ho : o.verifyChecksum = true) {line : Bytes}
    (hstart : line.head? = some Record.startCode)
    (h : ∀ r, Record.parse line = .ok r → r.checksumOk = false) : isMalformed o line = true := by
  cases hparse : Record.parse line with
  | error e => simp [isMalformed, Record.readsAs, hparse, hstart]
  | ok r => simp [isMalformed, isRefused, Record.readsAs, hparse, Options.accepts, ho, h r hparse]

theorem ne_nil_of_isMalformed {o : Options} {line : Bytes} (h : isMalformed o line = true) :
    line ≠ [] := by
  rintro rfl
  cases h

section Inserted

variable (vs : List Verdict) (v : Verdict) (us : List Verdict)

def inserted : List (Bool × Verdict) :=
  vs.map (Prod.mk false) ++ (true, v) :: us.map (Prod.mk false)

theorem map_snd_inserted : (inserted vs v us).map Prod.snd = vs ++ v :: us := by
  simp [inserted, Function.comp_def]

theorem unmarked_inserted :
    ((inserted vs v us).filter fun m => !m.1).map Prod.snd = vs ++ us := by
  simp [inserted, List.filter_map, Function.comp_def]

theorem eq_of_mem_inserted {m : Bool × Verdict} (h : m ∈ inserted vs v us) (hm : m.1 = true) :
    m.2 = v := by
  simp only [inserted, List.mem_append, List.mem_cons, List.mem_map] at h
  rcases h with ⟨_, _, rfl⟩ | rfl | ⟨_, _, rfl⟩
  · cases hm
  · rfl
  · cases hm

theorem countP_inserted (hv : v.stops = false) (p : Verdict → Bool) :
    ((inserted vs v us).takeWhile fun m => !m.2.stops).countP (fun m => m.1 && p m.2) =
      if vs.any Verdict.stops then 0 else [v].countP p := by
  induction vs with
  | nil =>
    have hothers : ((us.map (Prod.mk false)).takeWhile fun m => !m.2.stops).countP
        (fun m => m.1 && p m.2) = 0 := by
      refine List.countP_eq_zero.mpr fun m hm => ?_
      obtain ⟨u, _, rfl⟩ := List.mem_map.mp ((List.takeWhile_prefix _).subset hm)
      exact Bool.false_ne_true
    rw [inserted, List.map_nil, List.nil_append, List.takeWhile_cons_of_pos (by simp [hv]),
      List.countP_cons, hothers, Nat.zero_add, List.countP_singleton]
    rfl
  | cons w vs ih =>
    change (((false, w) :: inserted vs v us).takeWhile fun m => !m.2.stops).countP _ = _
    rw [List.any_cons]
    cases hw : w.stops with
    | true =>
      rw [List.takeWhile_cons_of_neg (by simp [hw])]
      rfl
    | false =>
      rw [List.takeWhile_cons_of_pos (by simp [hw]), List.countP_cons, ih]
      rfl

end Inserted

def Stops (o : Options) (text : Bytes) : Bool :=
  text.lines.all.any fun line => (Verdict.ofLine o line).stops

theorem load_put {o : Options} {line : Bytes} (hline : lineFeed ∉ line)
    (hmalformed : isMalformed o line = true) (place : LinePlace) (memory : Memory) :
    let put := load o ⟨place.put line, none⟩ memory
    let without := load o ⟨place.without, none⟩ memory
    put.memory = without.memory ∧ ∃ s, without.result = .ok s ∧
      put.result = .ok (if Stops o place.before then s
        else { s with malformed := s.malformed + 1 }) := by
  intro put without
  let v := Verdict.ofLine o line
  let vs := (Bytes.lines place.before).all.map (Verdict.ofLine o)
  let us := (Bytes.lines place.after.tail).all.map (Verdict.ofLine o)
  have hfault : v.isFault = true := (Verdict.isFault_ofLine o line).trans hmalformed
  have hv := Verdict.Inert.of_isFault hfault
  have hms : ∀ m ∈ inserted vs v us, m.1 = true → m.2.Inert := fun m hm hmarked =>
    (eq_of_mem_inserted vs v us hm hmarked).symm ▸ hv
  have hput : (Bytes.lines (place.put line)).all.map (Verdict.ofLine o) =
      (inserted vs v us).map Prod.snd := by
    rw [place.all_lines_put hline (ne_nil_of_isMalformed hmalformed), map_snd_inserted,
      List.map_append, List.map_cons]
  have hwithout : (Bytes.lines place.without).all.map (Verdict.ofLine o) =
      ((inserted vs v us).filter fun m => !m.1).map Prod.snd := by
    rw [place.all_lines_without, unmarked_inserted, List.map_append]
  have hstops : Stops o place.before = vs.any Verdict.stops := by
    rw [Stops, List.any_map]
    rfl
  obtain ⟨hmemory, s, hresult, hcounts⟩ := load_unmarked hms hput hwithout memory
  refine ⟨hmemory, s, hresult, hcounts.trans ?_⟩
  rw [countP_inserted vs v us hv.stops, countP_inserted vs v us hv.stops, List.countP_singleton,
    List.countP_singleton, Verdict.isIgnored_of_isFault hfault, hfault, ← hstops]
  split <;> rfl

/-- A record whose checksum holds, with one of its bytes behind the length spelled otherwise, is no
record any more or one whose checksum fails. A load that looks at checksums then does what it does
without the line, and counts one malformed line more unless it stopped before. -/
theorem load_garbled {line line' : Bytes} {r : Record} (h : Record.parse line = .ok r)
    (hok : r.checksumOk = true) (hgarbled : r.Garbled line line') :
    (∀ r', Record.parse line' = .ok r' → r'.checksumOk = false) ∧
      (lineFeed ∉ line → ∀ (extended : Bool) (place : LinePlace) (memory : Memory),
        let o : Options := ⟨true, extended⟩
        let garbled := load o ⟨place.put line', none⟩ memory
        let without := load o ⟨place.without, none⟩ memory
        garbled.memory = without.memory ∧ ∃ s, without.result = .ok s ∧
          garbled.result = .ok (if Stops o place.before then s
            else { s with malformed := s.malformed + 1 })) := by
  have hrejected : ∀ r', Record.parse line' = .ok r' → r'.checksumOk = false := fun _ h' =>
    Record.checksumOk_of_garbled h hok hgarbled h'
  refine ⟨hrejected, fun hline extended place memory => ?_⟩
  have hstart : line'.head? = some Record.startCode := by
    rw [hgarbled.head?, Record.startCode_head?_of_parse h]
  exact load_put (hgarbled.lineFeed_notMem hline)
    (isMalformed_of_checksum rfl hstart hrejected) place memory

/-- The last digit of the checksum becomes a blank, which is not read at the end of a line. -/
theorem load_garbled_blank :
    let line := Bytes.ofString ":0400000005000000F7"
    let line' := Bytes.ofString ":0400000005000000F "
    let r : Record := ⟨4, 0, .data, [5, 0, 0, 0], some 0xF7⟩
    let garbled := load ⟨true, true⟩
      ⟨Bytes.ofString ":0400040003000000F5\n:0400000005000000F \n:00000001FF", none⟩ #[1, 2]
    Record.parse line = .ok r ∧ r.checksumOk = true ∧ r.Garbled line line' ∧
      lineFeed ∉ line ∧ garbled.memory = #[1, 3] ∧
      garbled.result = .ok { records := 1, written := 1, malformed := 1 } := by
  intro line line' r garbled
  have hparse : Record.parse line = .ok r := by decide +kernel
  have hgarbled : r.Garbled line line' := by
    change r.Garbled (Bytes.ofString ":0400000005000000" ++ 70 :: 55 :: [])
      (Bytes.ofString ":0400000005000000" ++ 70 :: 32 :: [])
    refine .intro 8 rfl (by decide) (by decide) ?_ (by decide) (by decide)
    intro b _ hspelled
    have hblank : Hex.decode [70, 32] = .error (.badDigit 32 1) := by decide +kernel
    cases hblank.symm.trans hspelled.decode
  let place : LinePlace := {
    before := Bytes.ofString ":0400040003000000F5\n"
    after := Bytes.ofString "\n:00000001FF"
    begins := fun _ hb => (Option.some.inj hb).symm
    ends := .inr rfl }
  obtain ⟨_, hload⟩ := load_garbled hparse (by decide) hgarbled
  obtain ⟨hmemory, s, hwithout, hresult⟩ := hload (by decide) true place #[1, 2]
  have hsummary : s = { records := 1, written := 1 } :=
    Except.ok.inj (hwithout.symm.trans (by decide +kernel))
  refine ⟨hparse, by decide, hgarbled, by decide, hmemory.trans (by decide +kernel), ?_⟩
  rw [hsummary] at hresult
  exact hresult.trans (by decide +kernel)

end Image
end HexBench
