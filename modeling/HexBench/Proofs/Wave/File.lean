import HexBench.Proofs.FileTree
import HexBench.Wave.File

set_option autoImplicit false

namespace HexBench

theorem Bytes.size_append (content : Array UInt8) (bytes : Bytes) :
    (content ++ bytes).size = content.size + bytes.length := by
  rw [← Array.length_toList, Array.toList_appendList, List.length_append, Array.length_toList]

theorem FileTree.overwrite_end (content : Array UInt8) (bytes : Bytes) :
    overwrite content content.size bytes = content ++ bytes := by
  cases bytes with
  | nil => simp [overwrite]
  | cons b bytes => simp [overwrite]

theorem FileHandle.content?_write {h : FileHandle} {t : FileTree} {content : Array UInt8}
    (hcontent : t.content? h.location = some content) (hoffset : h.offset = content.size)
    (bytes : Bytes) : (h.write bytes t).2.content? h.location = some (content ++ bytes) ∧
      (h.write bytes t).1.offset = (content ++ bytes).size := by
  constructor
  · rw [write, FileTree.content?_write, hcontent, hoffset, Option.map_some, FileTree.overwrite_end]
  · rw [Bytes.size_append, ← hoffset]
    rfl

namespace Wave.File

/-- The text so far is in the file or waiting for it. The file is written at its end. -/
structure Holds (f : File) (t : FileTree) (text : Bytes) : Prop where
  reached : ∃ content, t.content? f.handle.location = some content ∧
    f.handle.offset = content.size ∧ content.toList ++ f.waiting.toList = text
  room : f.waiting.size ≤ capacity

/-- A wave file goes on to be the same file, and no other is written. -/
structure Goes (f : File) (t : FileTree) (f' : File) (t' : FileTree) : Prop where
  location : f'.handle.location = f.handle.location
  files : t.AgreesOff (some f.handle.location) t'

variable {f f' f'' : File} {t t' t'' : FileTree} {text : Bytes}

theorem Goes.refl (f : File) (t : FileTree) : f.Goes t f t := ⟨rfl, .refl _ t⟩

theorem Goes.trans (h : f.Goes t f' t') (h' : f'.Goes t' f'' t'') : f.Goes t f'' t'' :=
  ⟨h'.location.trans h.location, h.files.trans (h.location ▸ h'.files)⟩

theorem goes_flush (f : File) (t : FileTree) : f.Goes t (f.flush t).1 (f.flush t).2 :=
  ⟨rfl, t.agreesOff_write f.handle.location f.handle.offset _⟩

theorem goes_accept (f : File) (piece : Bytes) (t : FileTree) :
    f.Goes t (f.accept piece t).1 (f.accept piece t).2 := by
  rw [accept]
  split
  · exact ⟨rfl, t.agreesOff_write f.handle.location f.handle.offset piece⟩
  · exact ⟨rfl, .refl _ t⟩

theorem goes_write (f : File) (piece : Bytes) (t : FileTree) :
    f.Goes t (f.write piece t).1 (f.write piece t).2 := by
  rw [write]
  split
  · exact (f.goes_flush t).trans (goes_accept _ piece _)
  · exact f.goes_accept piece t

theorem goes_writeAll (f : File) (pieces : List Bytes) (t : FileTree) :
    f.Goes t (f.writeAll pieces t).1 (f.writeAll pieces t).2 := by
  induction pieces generalizing f t with
  | nil => exact .refl f t
  | cons piece pieces ih => exact (f.goes_write piece t).trans (ih _ _)

theorem Holds.agrees (h : f.Holds t text) {place : Option Location} (ht : t.AgreesOff place t')
    (hother : place ≠ some f.handle.location) : f.Holds t' text := by
  refine ⟨?_, h.room⟩
  rw [ht.content f.handle.location hother]
  exact h.reached

theorem Holds.isPrefix (h : f.Holds t text) :
    ∃ content, t.content? f.handle.location = some content ∧ content.toList <+: text := by
  obtain ⟨content, hcontent, _, htext⟩ := h.reached
  exact ⟨content, hcontent, htext ▸ List.prefix_append _ _⟩

theorem Holds.all (h : f.Holds t text) (hwaiting : f.waiting = #[]) :
    ∃ content, t.content? f.handle.location = some content ∧ content.toList = text := by
  obtain ⟨content, hcontent, _, htext⟩ := h.reached
  rw [hwaiting, List.append_nil] at htext
  exact ⟨content, hcontent, htext⟩

theorem holds_create {path : String} (h : create t path = .ok (f, t')) :
    t.makes path = .ok f.handle.location ∧ t' = t.put f.handle.location #[] ∧ f.Holds t' [] ∧
      f.waiting = #[] := by
  rw [create, FileTree.create_eq] at h
  cases hmakes : t.makes path with
  | error e => simp [hmakes, Except.map] at h
  | ok here =>
    simp only [hmakes, Except.map, Except.ok.injEq, Prod.mk.injEq] at h
    obtain ⟨rfl, rfl⟩ := h
    exact ⟨rfl, rfl, ⟨⟨#[], t.content?_put here #[], rfl, rfl⟩, Nat.zero_le _⟩, rfl⟩

theorem Holds.flush (h : f.Holds t text) : (f.flush t).1.Holds (f.flush t).2 text := by
  obtain ⟨content, hcontent, hoffset, htext⟩ := h.reached
  obtain ⟨hwritten, hend⟩ := FileHandle.content?_write hcontent hoffset f.waiting.toList
  refine ⟨⟨_, hwritten, hend, ?_⟩, Nat.zero_le _⟩
  rw [← htext]
  simp [File.flush]

/-- A piece past the buffer stands behind all text, because nothing is waiting then. -/
theorem Holds.accept (h : f.Holds t text) {piece : Bytes}
    (hfits : f.waiting.size + piece.length ≤ capacity ∨ f.waiting = #[]) :
    (f.accept piece t).1.Holds (f.accept piece t).2 (text ++ piece) := by
  obtain ⟨content, hcontent, hoffset, htext⟩ := h.reached
  rw [File.accept]
  split
  · rename_i hlong
    have hnone : f.waiting = #[] := by
      refine hfits.elim (fun hfits => ?_) id
      exact Array.eq_empty_of_size_eq_zero (by omega)
    obtain ⟨hwritten, hend⟩ := FileHandle.content?_write hcontent hoffset piece
    refine ⟨⟨_, hwritten, hend, ?_⟩, h.room⟩
    rw [← htext, hnone]
    simp
  · rename_i hshort
    have hroom : (f.waiting ++ piece).size ≤ capacity := by
      rw [Bytes.size_append]
      rcases hfits with hfits | hnone
      · exact hfits
      · rw [hnone, Array.size_empty]
        omega
    refine ⟨⟨content, hcontent, hoffset, ?_⟩, hroom⟩
    rw [← htext]
    simp

theorem Holds.write (h : f.Holds t text) (piece : Bytes) :
    (f.write piece t).1.Holds (f.write piece t).2 (text ++ piece) := by
  rw [File.write]
  split
  · exact h.flush.accept (.inr rfl)
  · rename_i hfits
    exact h.accept (.inl (Nat.le_of_not_lt hfits))

theorem Holds.writeAll (h : f.Holds t text) (pieces : List Bytes) :
    (f.writeAll pieces t).1.Holds (f.writeAll pieces t).2 (text ++ pieces.flatten) := by
  induction pieces generalizing f t text with
  | nil => rwa [List.flatten_nil, List.append_nil]
  | cons piece pieces ih =>
    rw [List.flatten_cons, ← List.append_assoc]
    exact ih (h.write piece)

theorem waiting_write_nil (h : f.waiting = #[]) (t : FileTree) :
    (f.write [] t).1.waiting = #[] := by
  have hfits : ¬ capacity < f.waiting.size + ([] : Bytes).length := by
    rw [h]
    decide
  have hshort : ¬ capacity ≤ ([] : Bytes).length := by decide
  rw [File.write, if_neg hfits, File.accept, if_neg hshort, h]
  rfl

theorem waiting_writeAll {pieces : List Bytes} (h : f.waiting = #[]) (hempty : pieces.flatten = [])
    (t : FileTree) : (f.writeAll pieces t).1.waiting = #[] := by
  induction pieces generalizing f t with
  | nil => exact h
  | cons piece pieces ih =>
    rw [List.flatten_cons, List.append_eq_nil_iff] at hempty
    obtain ⟨rfl, hrest⟩ := hempty
    exact ih (waiting_write_nil h t) hrest _

end Wave.File
end HexBench
