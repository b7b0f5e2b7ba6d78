import HexBench.Proofs.Wave.Identifier
import HexBench.Proofs.Wave.Sink

set_option autoImplicit false

/-!
# Reading a value change dump

A reader that knows nothing of the writer: it cuts the text into lines and the lines into words,
takes the variables from their declarations, and follows the values under the time stamps, up to a
time at which it is asked for them.
-/

namespace HexBench.Wave

inductive Statement where
  | declares (width : Nat) (code name : List Char)
  | stamps (time : Nat)
  | gives (code : List Char) (value : Nat)
  /-- The line belongs to the frame of the dump, and says nothing about variables. -/
  | frames
  deriving DecidableEq

namespace Statement

def isDigit (base : Nat) (c : Char) : Bool := c.isDigit && c.toNat - '0'.toNat < base

def number? (base : Nat) (digits : List Char) : Option Nat :=
  if digits.all (isDigit base) && !digits.isEmpty then some (Nat.ofDigitChars base digits 0)
  else none

def ofCommand? : List (List Char) → Option Statement
  | [] => some frames
  | command :: arguments =>
    if command = "var".toList then
      match arguments with
      | [_, width, code, name, _] => (number? 10 width).map (declares · code name)
      | _ => none
    else some frames

def ofVector? (words : List (List Char)) : Option Statement :=
  match words with
  | [digits, code] => (number? 2 digits).map (gives code)
  | _ => none

def ofLine? : List Char → Option Statement
  | [] => some frames
  | c :: rest =>
    if c = '$' then ofCommand? (rest.splitOn ' ')
    else if c = '#' then (number? 10 rest).map stamps
    else if c = 'b' then ofVector? (rest.splitOn ' ')
    else if c = '0' then some (gives rest 0)
    else if c = '1' then some (gives rest 1)
    else none

end Statement

structure Variable where
  width : Nat
  code : List Char
  name : List Char
  deriving DecidableEq

/-- What a reader knows after some lines. -/
structure Playback where
  known : List Variable := []
  /-- The last time stamp. -/
  time : Option Nat := none
  values : List Char → Option Nat := fun _ => none

namespace Playback

/-- Takes in a statement. A value counts if its time is not past the given one; a value before the
first stamp, or for a code that was not declared, is refused. -/
def take (now : Nat) (p : Playback) : Statement → Option Playback
  | .declares width code name => some { p with known := p.known ++ [⟨width, code, name⟩] }
  | .stamps time => some { p with time := some time }
  | .gives code value =>
    match p.time with
    | none => none
    | some time =>
      if p.known.any fun v => v.code == code then
        if time ≤ now then some { p with values := Function.update p.values code (some value) }
        else some p
      else none
  | .frames => some p

def follow (now : Nat) (p : Playback) (statements : List Statement) : Option Playback :=
  statements.foldlM (take now) p

def value? (p : Playback) (i : Nat) : Option Nat := p.known[i]?.bind fun v => p.values v.code

def read (now : Nat) (text : Bytes) : Option Playback := do
  let chars ← text.toByteArray.utf8Decode?
  let statements ← (chars.toList.splitOn '\n').mapM Statement.ofLine?
  follow now {} statements

theorem follow_append (now : Nat) (p : Playback) (xs ys : List Statement) :
    p.follow now (xs ++ ys) = (p.follow now xs).bind fun q => q.follow now ys :=
  List.foldlM_append

def Grounded (p : Playback) : Prop :=
  ∀ code, p.values code ≠ none → ∃ v ∈ p.known, v.code = code

theorem Grounded.take {now : Nat} {p q : Playback} (h : p.Grounded) {s : Statement}
    (hq : p.take now s = some q) : q.Grounded := by
  cases s with
  | declares width code name =>
    cases hq
    intro code' hvalue
    obtain ⟨v, hv, hcode⟩ := h code' hvalue
    exact ⟨v, List.mem_append_left _ hv, hcode⟩
  | stamps time =>
    cases hq
    exact h
  | gives code value =>
    -- A value is taken only for a code that the reader has found among the declarations.
    rw [Playback.take] at hq
    split at hq
    · cases hq
    · split at hq
      · rename_i hdeclared
        obtain ⟨v, hv, hcode⟩ := List.any_eq_true.mp hdeclared
        split at hq
        · cases hq
          intro code' hvalue
          by_cases hsame : code' = code
          · exact ⟨v, hv, (eq_of_beq hcode).trans hsame.symm⟩
          · refine h code' fun hnone => hvalue ?_
            exact (Function.update_of_ne hsame _ _).trans hnone
        · cases hq
          exact h
      · cases hq
  | frames =>
    cases hq
    exact h

theorem Grounded.follow {now : Nat} {p q : Playback} (h : p.Grounded)
    {statements : List Statement} (hq : p.follow now statements = some q) : q.Grounded := by
  induction statements generalizing p with
  | nil =>
    cases hq
    exact h
  | cons s rest ih =>
    rw [Playback.follow, List.foldlM_cons] at hq
    obtain ⟨p', hp', hrest⟩ := Option.bind_eq_some_iff.mp hq
    exact ih (h.take hp') hrest

theorem grounded_read {now : Nat} {text : Bytes} {p : Playback} (h : read now text = some p) :
    p.Grounded := by
  obtain ⟨chars, _, h⟩ := Option.bind_eq_some_iff.mp h
  obtain ⟨statements, _, h⟩ := Option.bind_eq_some_iff.mp h
  have hempty : ({} : Playback).Grounded := fun code hvalue => absurd rfl hvalue
  exact hempty.follow h

end Playback

section Words

def Solid (text : List Char) : Prop := ' ' ∉ text ∧ '\n' ∉ text

theorem Solid.of_ne {text : List Char} (h : ∀ c ∈ text, c ≠ ' ' ∧ c ≠ '\n') : Solid text :=
  ⟨fun hblank => (h ' ' hblank).1 rfl, fun hfeed => (h '\n' hfeed).2 rfl⟩

theorem solid_identifier (index : Nat) : Solid (identifier index) := by
  refine .of_ne fun c hc => ?_
  have hrange := (toNat_of_mem_identifier hc).1
  constructor
  · rintro rfl
    exact absurd hrange (by decide)
  · rintro rfl
    exact absurd hrange (by decide)

theorem splitOn_of_notMem {c : Char} {text : List Char} (h : c ∉ text) :
    text.splitOn c = [text] := by
  have hsplit : ([c].intercalate [text]).splitOn c = [text] :=
    List.splitOn_intercalate c (by simpa using h) (List.cons_ne_nil text [])
  rwa [List.intercalate_singleton] at hsplit

theorem splitOn_word {word : List Char} (h : ' ' ∉ word) (rest : List Char) :
    (word ++ ' ' :: rest).splitOn ' ' = word :: rest.splitOn ' ' := by
  rw [List.splitOn_append_cons_self, splitOn_of_notMem h, List.singleton_append]

theorem isDigit_digitChar {base n : Nat} (hbase : base ≤ 10) (h : n < base) :
    Statement.isDigit base n.digitChar = true := by
  have all : ∀ base ∈ List.range 11, ∀ n ∈ List.range base,
      Statement.isDigit base n.digitChar = true := by decide
  exact all base (List.mem_range.mpr (by omega)) n (List.mem_range.mpr h)

theorem isDigit_of_mem_toDigits {base n : Nat} {c : Char} (hlow : 1 < base) (hhigh : base ≤ 10)
    (h : c ∈ Nat.toDigits base n) : Statement.isDigit base c = true := by
  induction n using Nat.strongRecOn with
  | ind n ih =>
    rw [Nat.toDigits_eq_if hlow] at h
    split at h
    · rename_i hlast
      rw [List.mem_singleton.mp h]
      exact isDigit_digitChar hhigh hlast
    · rename_i hmore
      rcases List.mem_append.mp h with hfront | hlast
      · exact ih (n / base) (Nat.div_lt_self (by omega) hlow) hfront
      · rw [List.mem_singleton.mp hlast]
        exact isDigit_digitChar hhigh (Nat.mod_lt n (by omega))

theorem number?_toDigits {base : Nat} (hlow : 1 < base) (hhigh : base ≤ 10) (n : Nat) :
    Statement.number? base (Nat.toDigits base n) = some n := by
  have hall : (Nat.toDigits base n).all (Statement.isDigit base) = true :=
    List.all_eq_true.mpr fun c hc => isDigit_of_mem_toDigits hlow hhigh hc
  have hsome : (Nat.toDigits base n).isEmpty = false := by
    rw [List.isEmpty_eq_false_iff]
    exact Nat.toDigits_ne_nil
  rw [Statement.number?, hall, hsome, Nat.ofDigitChars_toDigits hlow hhigh]
  rfl

theorem solid_toDigits {base : Nat} (hlow : 1 < base) (hhigh : base ≤ 10) (n : Nat) :
    Solid (Nat.toDigits base n) := by
  refine .of_ne fun c hc => ?_
  have hdigit := Nat.isDigit_of_mem_toDigits (by omega) hhigh hc
  constructor
  · rintro rfl
    exact absurd hdigit (by decide)
  · rintro rfl
    exact absurd hdigit (by decide)

end Words

namespace Line

def chars (l : Line) : List Char := l.pieces.flatMap String.toList

def statement : Line → Statement
  | declaration width id name => .declares width.toNat id name.toList
  | stamp time => .stamps time.toNat
  | scalar bit id => .gives id bit.toNat
  | vector value id => .gives id value.toNat
  | _ => .frames

def WellFormed : Line → Prop
  | scope name => '\n' ∉ name.toList
  | declaration _ id name => Solid id ∧ Solid name.toList
  | scalar _ id | vector _ id => Solid id
  | _ => True

/-- The line is a text with one line feed, at its end, and a reader takes from the text what the
line says. -/
def Reads (l : Line) : Prop :=
  ∃ text, l.chars = text ++ ['\n'] ∧ '\n' ∉ text ∧ Statement.ofLine? text = some l.statement

theorem reads_scope {name : String} (h : '\n' ∉ name.toList) : (scope name).Reads := by
  refine ⟨'$' :: ("scope".toList ++ ' ' :: ("module ".toList ++ name.toList ++ " $end".toList)),
    ?_, ?_, ?_⟩
  · simp [chars, pieces]
  · simp [h]
  · have hcommand : ¬"scope".toList = "var".toList := by decide
    rw [Statement.ofLine?, if_pos rfl, splitOn_word (by decide)]
    simp only [Statement.ofCommand?, hcommand, if_false, statement]

theorem reads_declaration (width : UInt32) {id : List Char} {name : String} (hid : Solid id)
    (hname : Solid name.toList) : (declaration width id name).Reads := by
  have hdigits : Solid (Nat.toDigits 10 width.toNat) := solid_toDigits (by omega) (by omega) _
  refine ⟨'$' :: ("var".toList ++ ' ' :: ("wire".toList ++ ' ' :: (Nat.toDigits 10 width.toNat
    ++ ' ' :: (id ++ ' ' :: (name.toList ++ ' ' :: "$end".toList))))), ?_, ?_, ?_⟩
  · simp [chars, pieces]
  · simp [hid.2, hname.2, hdigits.2]
  · rw [Statement.ofLine?, if_pos rfl, splitOn_word (by decide), splitOn_word (by decide),
      splitOn_word hdigits.1, splitOn_word hid.1, splitOn_word hname.1,
      splitOn_of_notMem (by decide), Statement.ofCommand?, if_pos rfl,
      number?_toDigits (by omega) (by omega)]
    rfl

theorem reads_stamp (time : UInt64) : (stamp time).Reads := by
  have hdigits : Solid (Nat.toDigits 10 time.toNat) := solid_toDigits (by omega) (by omega) _
  refine ⟨'#' :: Nat.toDigits 10 time.toNat, ?_, ?_, ?_⟩
  · simp [chars, pieces]
  · simp [hdigits.2]
  · rw [Statement.ofLine?, if_neg (by decide), if_pos rfl, number?_toDigits (by omega) (by omega)]
    rfl

theorem reads_scalar (bit : Bool) {id : List Char} (hid : Solid id) : (scalar bit id).Reads := by
  refine ⟨(if bit then '1' else '0') :: id, ?_, ?_, ?_⟩
  · cases bit <;> simp [chars, pieces]
  · cases bit <;> simp [hid.2]
  · cases bit <;> rfl

theorem reads_vector (value : UInt64) {id : List Char} (hid : Solid id) :
    (vector value id).Reads := by
  have hdigits : Solid (Nat.toDigits 2 value.toNat) := solid_toDigits (by omega) (by omega) _
  refine ⟨'b' :: (Nat.toDigits 2 value.toNat ++ ' ' :: id), ?_, ?_, ?_⟩
  · simp [chars, pieces]
  · simp [hid.2, hdigits.2]
  · rw [Statement.ofLine?, if_neg (by decide), if_neg (by decide), if_pos rfl,
      splitOn_word hdigits.1, splitOn_of_notMem hid.1, Statement.ofVector?,
      number?_toDigits (by omega) (by omega)]
    rfl

theorem WellFormed.reads {l : Line} (h : l.WellFormed) : l.Reads := by
  cases l with
  | version => exact ⟨"$version archtest-dpi 0.1.0 $end".toList, by decide, by decide, by decide⟩
  | timescale => exact ⟨"$timescale 1ps $end".toList, by decide, by decide, by decide⟩
  | scope name => exact reads_scope h
  | declaration width id name => exact reads_declaration width h.1 h.2
  | upscope => exact ⟨"$upscope $end".toList, by decide, by decide, by decide⟩
  | endOfDefinitions => exact ⟨"$enddefinitions $end".toList, by decide, by decide, by decide⟩
  | stamp time => exact reads_stamp time
  | startOfValues => exact ⟨"$dumpvars".toList, by decide, by decide, by decide⟩
  | scalar bit id => exact reads_scalar bit h
  | vector value id => exact reads_vector value h
  | endOfValues => exact ⟨"$end".toList, by decide, by decide, by decide⟩

theorem bytes_eq (l : Line) : l.bytes.flatten = l.chars.flatMap String.utf8EncodeChar := by
  have hstring (s : String) : Bytes.ofString s = s.toList.flatMap String.utf8EncodeChar := by
    have hbytes : s.toByteArray = s.toList.utf8Encode := by
      rw [← String.toByteArray_ofList, String.ofList_toList]
    rw [Bytes.ofString, hbytes, List.utf8Encode.eq_1, List.data_toByteArray]
  rw [bytes, chars, List.flatMap_assoc, ← List.flatMap_def, funext hstring]

end Line

theorem statements_of_lines {lines : List Line} (h : ∀ l ∈ lines, l.WellFormed) :
    ((lines.flatMap Line.chars).splitOn '\n').mapM Statement.ofLine? =
      some (lines.map Line.statement ++ [.frames]) := by
  induction lines with
  | nil => rfl
  | cons l lines ih =>
    obtain ⟨text, hchars, hfeed, hstatement⟩ := (h l List.mem_cons_self).reads
    have hrest := ih fun l' hl' => h l' (List.mem_cons_of_mem l hl')
    rw [List.flatMap_cons, hchars, List.append_assoc, List.singleton_append,
      List.splitOn_append_cons_self, splitOn_of_notMem hfeed, List.singleton_append,
      List.mapM_cons, hstatement, hrest]
    rfl

def Statement.ofText? (text : Bytes) : Option (List Statement) := do
  let chars ← text.toByteArray.utf8Decode?
  (chars.toList.splitOn '\n').mapM ofLine?

theorem ofText?_written {lines : List Line} (h : ∀ l ∈ lines, l.WellFormed) :
    Statement.ofText? (written lines) = some (lines.map Line.statement ++ [.frames]) := by
  have hbytes : written lines = (lines.flatMap Line.chars).flatMap String.utf8EncodeChar := by
    rw [written, List.flatMap_assoc, ← funext Line.bytes_eq, List.flatMap_def, List.flatten_flatten,
      List.map_map]
    rfl
  rw [Statement.ofText?, hbytes, ← List.utf8Encode.eq_1, List.utf8Decode?_utf8Encode]
  exact statements_of_lines h

theorem read_lines (now : Nat) {lines : List Line} (h : ∀ l ∈ lines, l.WellFormed) :
    Playback.read now (written lines) =
      Playback.follow now {} (lines.map Line.statement) := by
  have hread (text : Bytes) : Playback.read now text =
      (Statement.ofText? text).bind (Playback.follow now {}) := by
    rw [Playback.read, Statement.ofText?]
    cases text.toByteArray.utf8Decode? <;> rfl
  rw [hread, ofText?_written h, Option.bind_some, Playback.follow_append]
  cases Playback.follow now {} (lines.map Line.statement) <;> rfl

end HexBench.Wave
