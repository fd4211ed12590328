import DeployClient.Program
import DeployClient.Proofs.ActionEnds
import DeployClient.Proofs.CompleteLines
import DeployClient.Proofs.PathNames

/-!
What stands above the spinner.

While an archive is made for an upload, its messages go through a buffer that prints complete lines
only. Every message ends with a line feed, so in the end nothing is held back: the lines are those
of the messages, in their order, and together they are the bytes that were written.
-/

namespace DeployClient

open Bytes (newline)
open Text (IsCut LineBuffer ended)

/-! ### Messages -/

namespace Diagnostic

/-- The lines of a message; a line feed in a name begins another one. -/
def lines (d : Diagnostic) : List String := (d.message.toList.splitOn '\n').map String.ofList

lemma lines_of_notMem {d : Diagnostic} (h : '\n' ∉ d.message.toList) : d.lines = [d.message] := by
  rw [lines, List.splitOn_eq_singleton h, List.map_singleton, String.ofList_toList]

/-- Ended one by one, the parts of a text are the text itself, which is ended. -/
lemma flatMap_ended {parts : List (List Char)} (hne : parts ≠ []) :
    (parts.map fun part => Bytes.ofText (String.ofList part)).flatMap ended
      = ended (Bytes.ofText (String.ofList (['\n'].intercalate parts))) := by
  induction parts with
  | nil => exact absurd rfl hne
  | cons part parts ih =>
    rw [List.map_cons, List.flatMap_cons]
    by_cases hparts : parts = []
    · subst hparts
      simp [ended, List.intercalate]
    · rw [ih hparts, List.intercalate_cons_of_ne_nil hparts]
      simp only [ended, Bytes.ofText_ofList, List.flatMap_append, List.append_assoc]
      rfl

lemma isCut_written (d : Diagnostic) : IsCut d.written (d.lines.map Bytes.ofText) [] where
  whole := by
    have hwhole := flatMap_ended (List.splitOn_ne_nil '\n' d.message.toList)
    rw [List.intercalate_splitOn, String.ofList_toList] at hwhole
    rw [List.append_nil, lines, List.map_map]
    exact hwhole
  single line hline := by
    obtain ⟨text, htext, rfl⟩ := List.mem_map.mp hline
    obtain ⟨part, hpart, rfl⟩ := List.mem_map.mp htext
    intro hfeed
    have hchar := (Bytes.mem_ofText_iff (c := '\n') (by decide)).mp hfeed
    rw [String.toList_ofList] at hchar
    rw [List.splitOn_eq_splitOnP] at hpart
    simpa using Path.not_of_mem_splitOnP hpart _ hchar
  unended := List.not_mem_nil

/-- **Messages leave no rest**, and their lines are those of all of them. -/
theorem isCut_flatMap_written (ds : List Diagnostic) :
    IsCut (ds.flatMap written) ((ds.flatMap lines).map Bytes.ofText) [] := by
  induction ds with
  | nil => exact .nil
  | cons d ds ih =>
    rw [List.flatMap_cons, List.flatMap_cons, List.map_append]
    exact d.isCut_written.append ih

end Diagnostic

/-- Messages that arrive in any pieces leave their lines, and nothing else. -/
lemma Text.LineBuffer.acceptAll_written {ds : List Diagnostic} {pieces : List Bytes}
    (h : pieces.flatten = ds.flatMap Diagnostic.written) :
    (empty.acceptAll pieces).2 = ⟨ds.flatMap Diagnostic.lines, []⟩ := by
  have hheld := (holds_empty.acceptAll pieces).1
  rw [List.nil_append, h] at hheld
  refine Holds.unique ⟨_, Diagnostic.isCut_flatMap_written ds, ?_⟩ hheld
  simp [Function.comp_def]

lemma Program.Outcome.lines_flatMap_lines (ds : List Diagnostic) :
    lines (ds.flatMap Diagnostic.lines) = ds.flatMap Diagnostic.written := by
  have hwhole := (Diagnostic.isCut_flatMap_written ds).whole
  rwa [List.append_nil, List.flatMap_map] at hwhole

/-! ### Archives -/

namespace Upload

variable {s : Session}

/-- **The messages of an archive stand above the spinner.** What a run tells is added to the notes,
whether an archive has been made or not. In whatever pieces its messages reach the buffer, all their
lines have been printed in the end, in the order of telling, and they are the bytes that were
written; each message is one line, unless a name in it holds a line feed. -/
theorem messages_shown (filesOnly : Bool) (paths : List Path) (workingDir : Option Path) :
    let options := { Archive.Options.forUpload with workingDir := workingDir }
    let notes := (Archive.build s.fs filesOnly paths options).notes
    let told := notes.filterMap Note.diagnostic?
    Action.Ends (createArchive filesOnly paths workingDir) s
        (fun _ s' => s'.notes = s.notes ++ notes) (fun s' => s'.notes = s.notes ++ notes)
      ∧ (∀ pieces : List Bytes, pieces.flatten = told.flatMap Diagnostic.written →
        let buffer := (LineBuffer.empty.acceptAll pieces).2
        buffer = ⟨told.flatMap Diagnostic.lines, []⟩
          ∧ Program.Outcome.lines buffer.printed = pieces.flatten)
      ∧ ((∀ d ∈ told, '\n' ∉ d.message.toList) →
        told.flatMap Diagnostic.lines = told.map Diagnostic.message) := by
  intro options notes told
  refine ⟨?_, fun pieces hpieces => ?_, fun hsingle => ?_⟩
  · unfold createArchive
    let busy : Session := { s with progress := "Archiving..." }
    refine .bind (Q := fun _ s' => s' = busy) (.modify rfl) ?_
    rintro _ _ rfl
    refine .bind (Q := fun seen s' => seen = busy ∧ s' = busy) (.get ⟨rfl, rfl⟩) ?_
    rintro _ _ ⟨rfl, rfl⟩
    refine .bind (Q := fun _ s' => s'.notes = s.notes ++ notes) (.modify rfl) ?_
    intro _ s' hnotes
    split
    · exact .throw hnotes
    · exact .pure hnotes
  · rw [LineBuffer.acceptAll_written hpieces]
    exact ⟨rfl, (Program.Outcome.lines_flatMap_lines told).trans hpieces.symm⟩
  · rw [List.flatMap_congr fun d hd => Diagnostic.lines_of_notMem (hsingle d hd),
      List.map_eq_flatMap]

end Upload

end DeployClient
