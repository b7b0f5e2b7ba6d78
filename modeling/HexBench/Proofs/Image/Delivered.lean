import HexBench.Proofs.Image.Roles
import HexBench.Proofs.Text.Edits

set_option autoImplicit false

namespace HexBench.Image

namespace Load

theorem run_append (o : Options) (xs ys : List Bytes) (number : Nat) (l : Load) :
    run o number (xs ++ ys) l = run o (number + xs.length) ys (run o number xs l) := by
  induction xs generalizing number l with
  | nil => rfl
  | cons line xs ih =>
    rw [List.cons_append, run, run]
    split
    · rename_i hstopped
      rw [run_of_stopped o _ ys hstopped]
    · rw [ih, List.length_cons, Nat.add_assoc, Nat.add_comm 1]

theorem stopped_run (o : Options) (ls : List Bytes) (number : Nat) (l : Load) :
    (run o number ls l).stopped = (l.stopped || ls.any (isEnd o)) := by
  induction ls generalizing number l with
  | nil => exact (Bool.or_false _).symm
  | cons line ls ih =>
    rw [run, List.any_cons]
    split
    · rename_i hstopped
      rw [hstopped, Bool.true_or]
    · rename_i hrunning
      rw [ih, apply_stopped, Verdict.stops_ofLine, Bool.eq_false_iff.mpr hrunning,
        Bool.or_false, Bool.false_or]

end Load

theorem lines_source (bytes more : Bytes) (failure : Option String) :
    ∃ behind, (Source.mk (bytes ++ more) failure).lines = bytes.lines.ended ++ behind := by
  obtain ⟨ended, hended⟩ := Bytes.ended_lines_append bytes more
  cases failure with
  | some text => exact ⟨ended, hended⟩
  | none =>
    simp only [Source.lines, Bytes.Lines.all, hended, List.append_assoc]
    split
    · exact ⟨_, rfl⟩
    · exact ⟨_, rfl⟩

theorem load_stopped {o : Options} {bytes : Bytes} (hend : bytes.lines.ended.any (isEnd o) = true)
    (more : Bytes) (failure : Option String) (memory : Memory) :
    let l := Load.run o 1 bytes.lines.ended { memory }
    load o ⟨bytes ++ more, failure⟩ memory = ⟨l.memory, l.events, .ok l.summary⟩ := by
  intro l
  obtain ⟨behind, hlines⟩ := lines_source bytes more failure
  have hstopped : l.stopped = true := by
    rw [Load.stopped_run, hend, Bool.or_true]
  have hrun : Load.run o 1 (bytes.lines.ended ++ behind) { memory } = l := by
    rw [Load.run_append, Load.run_of_stopped o _ behind hstopped]
  rw [load, hlines, hrun, hstopped]
  cases failure <;> rfl

/-- Behind an ended line with an end-of-file record that is honoured, nothing that a reader may
still deliver makes a difference to a load, and neither does a failure. Without such a line a
failure is what the load results in; the memory and the log are those of the lines ended before. -/
theorem load_delivered (o : Options) (bytes : Bytes) (memory : Memory) :
    (bytes.lines.ended.any (isEnd o) = true →
      (∃ s, (load o ⟨bytes, none⟩ memory).result = .ok s) ∧
      ∀ (more : Bytes) (failure : Option String),
        load o ⟨bytes ++ more, failure⟩ memory = load o ⟨bytes, none⟩ memory) ∧
    (bytes.lines.ended.any (isEnd o) = false → ∀ text : String,
      let failed := load o ⟨bytes, some text⟩ memory
      let whole := load o ⟨bytes.wholeLines, none⟩ memory
      failed.result = .error text ∧ failed.memory = whole.memory ∧
        failed.events = whole.events) := by
  constructor
  · intro hend
    have hbytes := load_stopped hend [] none memory
    rw [List.append_nil] at hbytes
    refine ⟨⟨_, congrArg Outcome.result hbytes⟩, fun more failure => ?_⟩
    rw [load_stopped hend, hbytes]
  · intro hend text failed whole
    have hlines :
        (Source.mk bytes.wholeLines none).lines = (Source.mk bytes (some text)).lines := by
      rw [Source.lines, Source.lines, Bytes.lines_wholeLines]
      rfl
    have hrunning : (Load.run o 1 bytes.lines.ended { memory }).stopped = false := by
      rw [Load.stopped_run, hend]
      rfl
    refine ⟨?_, ?_, ?_⟩
    · change (if (Load.run o 1 bytes.lines.ended { memory }).stopped then _ else _) = _
      rw [hrunning]
      rfl
    · simp only [failed, whole, load, hlines]
    · simp only [failed, whole, load, hlines]

/-- A failure right behind the end-of-file record is not met, one behind a whole record that no
line feed ends is. -/
theorem load_delivered_unended :
    let o : Options := ⟨true, true⟩
    let ended := Bytes.ofString ":0400000001000000FB\n:00000001FF\n"
    let unended := Bytes.ofString ":0400000001000000FB\n:0400000002000000FA"
    let more := Bytes.ofString ":0400000002000000FA\n"
    let behind := load o ⟨ended ++ more, some "lost"⟩ #[7]
    let failed := load o ⟨unended, some "lost"⟩ #[7]
    ended.lines.ended.any (isEnd o) = true ∧ unended.lines.ended.any (isEnd o) = false ∧
      behind.result = .ok { records := 1, written := 1 } ∧ behind.memory = #[1] ∧
      failed.result = .error "lost" ∧ failed.memory = #[1] := by
  intro o ended unended more behind failed
  have hended : ended.lines.ended.any (isEnd o) = true := by decide +kernel
  have hunended : unended.lines.ended.any (isEnd o) = false := by decide +kernel
  obtain ⟨_, hbehind⟩ := (load_delivered o ended #[7]).1 hended
  obtain ⟨hresult, hmemory, _⟩ := (load_delivered o unended #[7]).2 hunended "lost"
  refine ⟨hended, hunended, ?_, ?_, hresult, hmemory.trans (by decide +kernel)⟩
  · exact (congrArg Outcome.result (hbehind more (some "lost"))).trans (by decide +kernel)
  · exact (congrArg Outcome.memory (hbehind more (some "lost"))).trans (by decide +kernel)

end HexBench.Image
