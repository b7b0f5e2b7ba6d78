import HexBench.Program
import HexBench.Proofs.Bench.Output
import HexBench.Proofs.Session.Log
import HexBench.Proofs.Wave.File

set_option autoImplicit false

namespace HexBench

open Bench (Action textOf)

namespace Session

/-- Sessions that differ in their files only, and there in one file at most. -/
structure SameOff (place : Option Location) (s s' : Session) : Prop where
  rest : s' = { s with files := s'.files }
  files : s.files.AgreesOff place s'.files

variable {place : Option Location} {s s' : Session}

theorem SameOff.refl (place : Option Location) (s : Session) : s.SameOff place s :=
  ⟨rfl, .refl place s.files⟩

theorem SameOff.log (h : s.SameOff place s') (e : LogEntry) :
    (s.log e).SameOff place (s'.log e) := by
  obtain ⟨hrest, hfiles⟩ := h
  generalize s'.files = files' at hrest hfiles
  subst hrest
  obtain ⟨arguments, filter, files, stdout, stderr, logger, loading⟩ := s
  cases logger with
  | none => exact ⟨rfl, hfiles⟩
  | some l =>
    obtain ⟨filter, target⟩ := l
    simp only [Session.log]
    split
    · cases target with
      | terminal => exact ⟨rfl, hfiles⟩
      | file h => exact ⟨rfl, hfiles.write h.location h.offset (Bytes.ofString e.fileLine)⟩
    · exact ⟨rfl, hfiles⟩

theorem SameOff.trans {u : Session} (h : s.SameOff place s') (h' : s'.SameOff place u) :
    s.SameOff place u := by
  refine ⟨?_, h.files.trans h'.files⟩
  rw [h'.rest, h.rest]

theorem SameOff.logPlace (h : s.SameOff place s') : s'.logPlace = s.logPlace := by
  rw [h.rest]
  rfl

theorem agreesOffLog_logAction (s : Session) (a : Action) : s.AgreesOffLog (s.logAction a) := by
  rw [logAction]
  split
  · exact .refl s
  · exact s.agreesOffLog_log _

end Session

namespace Recording

def place (r : Recording) : Option Location := r.waves.map fun w => w.handle.location

theorem write_sameOff (r : Recording) (a : Action) :
    (r.write a).place = r.place ∧ r.session.SameOff r.place (r.write a).session := by
  obtain ⟨s, waves⟩ := r
  cases waves with
  | none => exact ⟨rfl, .refl _ s⟩
  | some w =>
    have hgoes {w' : Wave.File} {files : FileTree} (h : w.Goes s.files w' files) :
        some w'.handle.location = some w.handle.location ∧
          s.SameOff (some w.handle.location) { s with files } :=
      ⟨congrArg some h.location, rfl, h.files⟩
    cases a with
    | traceText pieces => exact hgoes (w.goes_writeAll pieces s.files)
    | call c =>
      cases c with
      | close => exact hgoes (w.goes_flush s.files)
      | _ => exact ⟨rfl, .refl _ s⟩
    | _ => exact ⟨rfl, .refl _ s⟩

theorem carry_place (r : Recording) (a : Action) : (r.carry a).place = r.place :=
  (r.write_sameOff a).1

/-- What a run writes to the wave file is not logged, and what it logs stands where it would stand
if there were no wave file. -/
theorem carryOut_sameOff (r : Recording) (actions : List Action) :
    (r.session.logAll (actions.filterMap Action.entry?)).SameOff r.place
      (r.carryOut actions).session := by
  have hcarried (s : Session) (hs : s.SameOff r.place r.session) :
      (s.logAll (actions.filterMap Action.entry?)).SameOff r.place
        (r.carryOut actions).session := by
    induction actions generalizing r s with
    | nil => exact hs
    | cons a actions ih =>
      have hwritten := (r.write_sameOff a).2
      have hsame := hs.trans hwritten
      have hplace := r.carry_place a
      cases hentry : a.entry? with
      | none =>
        rw [List.filterMap_cons_none hentry]
        have hcarry : (r.carry a).session = (r.write a).session := by
          simp only [carry, Session.logAction, hentry]
        rw [← hplace]
        exact ih (r.carry a) s (hplace ▸ hcarry ▸ hsame)
      | some e =>
        rw [List.filterMap_cons_some hentry]
        have hcarry : (r.carry a).session = (r.write a).session.log e := by
          simp only [carry, Session.logAction, hentry]
        rw [← hplace]
        exact ih (r.carry a) (s.log e) (hplace ▸ hcarry ▸ hsame.log e)
  exact hcarried r.session (.refl _ _)

/-- The wave file has the text so far, and is not the log file. -/
structure Records (r : Recording) (here : Location) (text : Bytes) : Prop where
  waves : ∃ w, r.waves = some w ∧ w.handle.location = here ∧ w.Holds r.session.files text
  apart : r.session.logPlace ≠ some here

variable {r : Recording} {here : Location} {text : Bytes}

theorem Records.write (h : r.Records here text) (a : Action) :
    (r.write a).Records here (text ++ a.text) := by
  obtain ⟨w, hw, hplace, hholds⟩ := h.waves
  have hapart : (r.write a).session.logPlace ≠ some here := by
    rw [(r.write_sameOff a).2.logPlace]
    exact h.apart
  refine ⟨?_, hapart⟩
  obtain ⟨s, waves⟩ := r
  obtain rfl : waves = some w := hw
  have hsame : w.Holds s.files (text ++ []) := by rwa [List.append_nil]
  cases a with
  | traceText pieces =>
    exact ⟨_, rfl, (w.goes_writeAll pieces s.files).location.trans hplace, hholds.writeAll pieces⟩
  | call c =>
    cases c with
    | close => exact ⟨_, rfl, hplace, hsame.flush⟩
    | _ => exact ⟨w, rfl, hplace, hsame⟩
  | _ => exact ⟨w, rfl, hplace, hsame⟩

theorem Records.carry (h : r.Records here text) (a : Action) :
    (r.carry a).Records here (text ++ a.text) := by
  have hwritten := h.write a
  have hlogged := (r.write a).session.agreesOffLog_logAction a
  obtain ⟨w, hw, rfl, hholds⟩ := hwritten.waves
  exact ⟨⟨w, hw, rfl, hholds.agrees hlogged.files hwritten.apart⟩,
    hlogged.logPlace.symm ▸ hwritten.apart⟩

theorem Records.carryOut (h : r.Records here text) (actions : List Action) :
    (r.carryOut actions).Records here (text ++ textOf actions) := by
  induction actions generalizing r text with
  | nil => rwa [textOf, List.flatMap_nil, List.append_nil]
  | cons a actions ih =>
    rw [textOf, List.flatMap_cons, ← List.append_assoc]
    exact ih (h.carry a)

def Flushed (r : Recording) : Prop := ∀ w, r.waves = some w → w.waiting = #[]

theorem flushed_close (r : Recording) : (r.carry (.call .close)).Flushed := by
  obtain ⟨s, waves⟩ := r
  cases waves with
  | none => nofun
  | some w =>
    intro w' hw'
    cases hw'
    rfl

theorem Flushed.carry (h : r.Flushed) {a : Action} (htext : a.text = []) : (r.carry a).Flushed := by
  obtain ⟨s, waves⟩ := r
  cases waves with
  | none => nofun
  | some w =>
    cases a with
    | traceText pieces =>
      intro w' hw'
      cases hw'
      exact Wave.File.waiting_writeAll (h w rfl) htext s.files
    | call c =>
      cases c with
      | close => exact flushed_close _
      | _ => exact h
    | _ => exact h

theorem Flushed.carryOut (h : r.Flushed) {actions : List Action} (htext : textOf actions = []) :
    (r.carryOut actions).Flushed := by
  induction actions generalizing r with
  | nil => exact h
  | cons a actions ih =>
    rw [textOf, List.flatMap_cons, List.append_eq_nil_iff] at htext
    exact ih (h.carry htext.1) htext.2

theorem Records.all (h : r.Records here []) {actions before after : List Action}
    (hclose : actions = before ++ .call .close :: after) (hafter : textOf after = []) :
    ∃ content, (r.carryOut actions).session.files.content? here = some content ∧
      content.toList = textOf actions := by
  have hflushed : (r.carryOut actions).Flushed := by
    rw [hclose, Recording.carryOut, List.foldl_append, List.foldl_cons]
    exact (flushed_close _).carryOut hafter
  obtain ⟨w, hw, rfl, hholds⟩ := (h.carryOut actions).waves
  exact hholds.all (hflushed w hw)

theorem start_records {s : Session} {path : String} (hmakes : s.files.makes path = .ok here)
    (hlog : s.logPlace ≠ some here) : (Recording.start s (some path)).Records here [] := by
  cases hcreate : Wave.File.create s.files path with
  | error e =>
    rw [Wave.File.create, FileTree.create_eq, hmakes] at hcreate
    cases hcreate
  | ok made =>
    obtain ⟨file, files⟩ := made
    obtain ⟨hplace, _, hholds, _⟩ := Wave.File.holds_create hcreate
    obtain rfl := Except.ok.inj (hplace.symm.trans hmakes)
    have hlogged := Session.agreesOffLog_log { s with files } (Wave.Event.opened path).entry
    simp only [start, hcreate]
    exact ⟨⟨file, rfl, rfl, hholds.agrees hlogged.files hlog⟩, hlogged.logPlace.symm ▸ hlog⟩

end Recording
end HexBench
