import HexBench.Proofs.Image.Unapplied

set_option autoImplicit false

namespace HexBench.Image

open Bytes (kept struck strike)
open Record (readsAs)

def isUnchecked : Bytes → Bool := readsAs fun r => !r.checksumOk

def isExtended (o : Options) : Bytes → Bool :=
  readsAs fun r => o.accepts r ∧ r.kind.isExtended

theorem struck_const (p : Bytes → Bool) (ls : List Bytes) :
    struck (fun _ => p) ls = ls.filter p := by
  rw [struck, Bytes.marked_const, List.filter_map, List.map_map]
  exact List.map_id _

theorem kept_const (p : Bytes → Bool) (ls : List Bytes) :
    kept (fun _ => p) ls = ls.filter fun line => !p line := by
  rw [kept, Bytes.marked_const, List.filter_map, List.map_map]
  exact List.map_id _

theorem load_strike_const {o o' : Options} {p : Bytes → Bool} (skipped : Bool)
    (hgone : ∀ line, p line = true → isSkipped o line = skipped ∧ isMalformed o line = !skipped)
    (hkept : ∀ line, p line = false → Verdict.ofLine o' line = Verdict.ofLine o line)
    (text : Bytes) (memory : Memory) :
    let whole := load o ⟨text, none⟩ memory
    let left := load o' ⟨text.strike fun _ => p, none⟩ memory
    let reached := (text.lines.all.takeWhile fun line => !isEnd o line).countP p
    whole.memory = left.memory ∧ ∃ s, left.result = .ok s ∧
      whole.result = .ok { s with
        skipped := s.skipped + if skipped then reached else 0
        malformed := s.malformed + if skipped then 0 else reached } := by
  intro whole left reached
  have hstruck : ∀ line ∈ struck (fun _ => p) text.lines.all, isUnapplied o line = true := by
    intro line hline
    rw [struck_const] at hline
    obtain ⟨hskipped, hmalformed⟩ := hgone line (List.mem_filter.mp hline).2
    cases skipped with
    | true => exact decide_eq_true (.inr (.inr hskipped))
    | false => exact decide_eq_true (.inr (.inl hmalformed))
  have hleft : ∀ line ∈ kept (fun _ => p) text.lines.all,
      Verdict.ofLine o' line = Verdict.ofLine o line := by
    intro line hline
    rw [kept_const] at hline
    exact hkept line (by simpa using (List.mem_filter.mp hline).2)
  have hall (q : Bytes → Bool) (c : Bool) (h : ∀ line, p line = true → q line = c)
      (ls : List Bytes) : (ls.filter p).countP q = if c then ls.countP p else 0 := by
    cases c with
    | true =>
      rw [if_pos rfl, List.countP_eq_length_filter (l := ls), List.countP_eq_length]
      exact fun line hline => h line (List.mem_filter.mp hline).2
    | false =>
      rw [if_neg Bool.false_ne_true, List.countP_eq_zero]
      exact fun line hline => by rw [h line (List.mem_filter.mp hline).2]; exact Bool.false_ne_true
  obtain ⟨hmemory, s, hresult, hwhole⟩ := load_strike hstruck hleft memory
  refine ⟨hmemory, s, hresult, hwhole.trans ?_⟩
  rw [struck_const, hall _ skipped fun line hline => (hgone line hline).1,
    hall _ (!skipped) fun line hline => (hgone line hline).2]
  cases skipped <;> rfl

theorem unchecked_roles (extended : Bool) {line : Bytes} (h : isUnchecked line = true) :
    isSkipped ⟨true, extended⟩ line = false ∧ isMalformed ⟨true, extended⟩ line = true := by
  obtain ⟨r, hparse, hunchecked⟩ := Record.readsAs_iff.mp h
  have hbad : r.checksumOk = false := by simpa using hunchecked
  simp [isSkipped, isMalformed, isRefused, readsAs, hparse, Options.accepts, hbad]

theorem ofLine_checked (extended : Bool) {line : Bytes} (h : isUnchecked line = false) :
    Verdict.ofLine ⟨false, extended⟩ line = Verdict.ofLine ⟨true, extended⟩ line := by
  cases hparse : Record.parse line with
  | error e =>
    rw [Verdict.ofLine, Verdict.ofLine, hparse]
  | ok r =>
    have hok : r.checksumOk = true := by simpa [isUnchecked, readsAs, hparse] using h
    rw [Verdict.ofLine_of_parse _ hparse, Verdict.ofLine_of_parse _ hparse, Verdict.ofRecord_eq,
      Verdict.ofRecord_eq, Options.accepts, Options.accepts, hok]
    rfl

theorem extended_roles (verify : Bool) {line : Bytes} (h : isExtended ⟨verify, false⟩ line = true) :
    isSkipped ⟨verify, false⟩ line = true ∧ isMalformed ⟨verify, false⟩ line = false := by
  obtain ⟨r, hparse, hextended⟩ := Record.readsAs_iff.mp h
  obtain ⟨haccepts, hkind⟩ := of_decide_eq_true hextended
  have hdata : r.kind ≠ .data := by
    intro hdata
    rw [hdata] at hkind
    cases hkind
  simp [isSkipped, isMalformed, isRefused, readsAs, hparse, haccepts, Options.heeds, hdata]

theorem ofLine_plain (verify : Bool) {line : Bytes} (h : isExtended ⟨verify, false⟩ line = false) :
    Verdict.ofLine ⟨verify, true⟩ line = Verdict.ofLine ⟨verify, false⟩ line := by
  cases hparse : Record.parse line with
  | error e =>
    rw [Verdict.ofLine, Verdict.ofLine, hparse]
  | ok r =>
    have hplain : Options.accepts ⟨verify, false⟩ r = true → r.kind.isExtended = false := by
      simpa [isExtended, readsAs, hparse] using h
    rw [Verdict.ofLine_of_parse _ hparse, Verdict.ofLine_of_parse _ hparse, Verdict.ofRecord_eq,
      Verdict.ofRecord_eq]
    change (if Options.accepts ⟨verify, false⟩ r = true then _ else _) = _
    split
    · rename_i haccepts
      have hkind := hplain haccepts
      rw [Verdict.ofKind, Verdict.ofKind]
      cases hcase : r.kind with
      | endOfFile => rw [hcase] at hkind; cases hkind
      | extendedSegmentAddress => rw [hcase] at hkind; cases hkind
      | extendedLinearAddress => rw [hcase] at hkind; cases hkind
      | _ => rfl
    · rfl

theorem takeWhile_of_plain (verify : Bool) (ls : List Bytes) :
    ls.takeWhile (fun line => !isEnd ⟨verify, false⟩ line) = ls := by
  rw [List.takeWhile_eq_self_iff]
  intro line _
  rw [isEnd_of_plain rfl]
  rfl

/-- A load that looks at checksums is one that does not, of the text without the records whose
checksum fails; these count as malformed as far as the load goes. A load that passes over extended
records is one that heeds them, of the text without them; these count as skipped. -/
theorem load_filters (text : Bytes) (memory : Memory) :
    (∀ extended : Bool,
      let o : Options := ⟨true, extended⟩
      let whole := load o ⟨text, none⟩ memory
      let left := load ⟨false, extended⟩ ⟨text.strike fun _ => isUnchecked, none⟩ memory
      let reached := text.lines.all.takeWhile fun line => !isEnd o line
      whole.memory = left.memory ∧ ∃ s, left.result = .ok s ∧
        whole.result = .ok { s with malformed := s.malformed + reached.countP isUnchecked }) ∧
    ∀ verify : Bool,
      let o : Options := ⟨verify, false⟩
      let whole := load o ⟨text, none⟩ memory
      let left := load ⟨verify, true⟩ ⟨text.strike fun _ => isExtended o, none⟩ memory
      whole.memory = left.memory ∧ ∃ s, left.result = .ok s ∧
        whole.result = .ok { s with
          skipped := s.skipped + text.lines.all.countP (isExtended o) } := by
  constructor
  · intro extended
    exact load_strike_const false (fun _ => unchecked_roles extended)
      (fun _ => ofLine_checked extended) text memory
  · intro verify
    have hload := load_strike_const true (fun _ => extended_roles verify)
      (fun _ => ofLine_plain verify) text memory
    rw [takeWhile_of_plain] at hload
    exact hload

/-- The second record has a wrong checksum, and the third one moves the base. -/
theorem load_filters_two_words :
    let text := Bytes.ofString
      ":0400000001000000FB\n:0400000002000000FB\n:020000040001F9\n:0400040003000000F5\n"
    let o : Options := ⟨true, false⟩
    let o' : Options := ⟨false, false⟩
    let checked := text.strike fun _ => isUnchecked
    let plain := text.strike fun _ => isExtended o'
    (load o' ⟨checked, none⟩ #[7, 7]).memory = #[1, 3] ∧
      (load o ⟨text, none⟩ #[7, 7]).memory = #[1, 3] ∧
      (load o ⟨text, none⟩ #[7, 7]).result =
        .ok { records := 2, written := 2, skipped := 1, malformed := 1 } ∧
      (load ⟨false, true⟩ ⟨plain, none⟩ #[7, 7]).memory = #[2, 3] ∧
      (load o' ⟨text, none⟩ #[7, 7]).memory = #[2, 3] ∧
      (load o' ⟨text, none⟩ #[7, 7]).result = .ok { records := 3, written := 3, skipped := 1 } := by
  intro text o o' checked plain
  obtain ⟨hverify, hextended⟩ := load_filters text #[7, 7]
  obtain ⟨hchecked, s, hleft, hwhole⟩ := hverify false
  obtain ⟨hplain, s', hleft', hwhole'⟩ := hextended false
  have hs : s = { records := 2, written := 2, skipped := 1 } :=
    Except.ok.inj (hleft.symm.trans (by decide +kernel))
  have hs' : s' = { records := 3, written := 3 } :=
    Except.ok.inj (hleft'.symm.trans (by decide +kernel))
  subst hs hs'
  have hmemory : (load o' ⟨checked, none⟩ #[7, 7]).memory = #[1, 3] := by decide +kernel
  have hmemory' : (load ⟨false, true⟩ ⟨plain, none⟩ #[7, 7]).memory = #[2, 3] := by decide +kernel
  exact ⟨hmemory, hchecked.trans hmemory, hwhole.trans (by decide +kernel),
    hmemory', hplain.trans hmemory', hwhole'.trans (by decide +kernel)⟩

end HexBench.Image
