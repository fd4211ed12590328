import DeployClient.Text.Lines
import Mathlib.Data.List.Basic
import Mathlib.Tactic.Lemma

/-!
Lines that are printed as soon as they are complete.

A text is cut in one way only into lines that are ended and a rest that is not. Draining prints the
lines and leaves the rest, so after any call the buffer holds what cutting all the bytes so far
gives: where the calls begin and end makes no difference, be it inside a line or inside a character.
-/

namespace DeployClient.Text

open Bytes (newline)

variable {bytes data line rest rest' : Bytes} {lines lines' more : List Bytes}

/-! ### Cutting -/

/-- A line with the line feed that ends it. -/
def ended (line : Bytes) : Bytes := line ++ [newline]

/-- The bytes are these lines, each of which is ended, and a rest that is not. -/
structure IsCut (bytes : Bytes) (lines : List Bytes) (rest : Bytes) : Prop where
  whole : lines.flatMap ended ++ rest = bytes
  single : ∀ line ∈ lines, newline ∉ line
  unended : newline ∉ rest

namespace IsCut

lemma nil : IsCut [] [] [] := ⟨rfl, by simp, by simp⟩

lemma cons (hline : newline ∉ line) (h : IsCut bytes lines rest) :
    IsCut (ended line ++ bytes) (line :: lines) rest where
  whole := by rw [List.flatMap_cons, List.append_assoc, h.whole]
  single := List.forall_mem_cons.mpr ⟨hline, h.single⟩
  unended := h.unended

/-- Further bytes are cut together with the rest that they follow. -/
lemma append (h : IsCut bytes lines rest) (hmore : IsCut (rest ++ data) more rest') :
    IsCut (bytes ++ data) (lines ++ more) rest' where
  whole := by
    rw [List.flatMap_append, List.append_assoc, hmore.whole, ← List.append_assoc, h.whole]
  single line hline := (List.mem_append.mp hline).elim (h.single line) (hmore.single line)
  unended := hmore.unended

lemma cutLines_eq (h : IsCut bytes lines rest) : cutLines bytes = lines ++ [rest] := by
  obtain ⟨rfl, hsingle, hrest⟩ := h
  induction lines with
  | nil => exact List.splitOn_eq_singleton hrest
  | cons line lines ih =>
    obtain ⟨hline, hlines⟩ := List.forall_mem_cons.mp hsingle
    have hbytes : (line :: lines).flatMap ended ++ rest
        = line ++ newline :: (lines.flatMap ended ++ rest) := by simp [ended]
    rw [hbytes, cutLines, List.splitOn_append_cons_self, List.splitOn_eq_singleton hline,
      List.singleton_append, List.cons_append]
    exact congrArg _ (ih hlines)

/-- There is one way to cut. -/
lemma unique (h : IsCut bytes lines rest) (h' : IsCut bytes lines' rest') :
    lines' = lines ∧ rest' = rest := by
  have hsame : lines' ++ [rest'] = lines ++ [rest] := h'.cutLines_eq.symm.trans h.cutLines_eq
  obtain ⟨hlines, hrest⟩ := List.append_inj' hsame rfl
  exact ⟨hlines, List.singleton_inj.mp hrest⟩

end IsCut

lemma exists_isCut (bytes : Bytes) : ∃ lines rest, IsCut bytes lines rest := by
  induction bytes with
  | nil => exact ⟨[], [], .nil⟩
  | cons b bytes ih =>
    obtain ⟨lines, rest, h⟩ := ih
    by_cases hb : b = newline
    · subst hb
      exact ⟨[] :: lines, rest, h.cons (List.not_mem_nil)⟩
    · obtain ⟨rfl, hsingle, hrest⟩ := h
      have hfirst : ∀ {line : Bytes}, newline ∉ line → newline ∉ b :: line := by
        intro line hline
        simpa [Ne.symm hb] using hline
      cases lines with
      | nil => exact ⟨[], b :: rest, rfl, by simp, hfirst hrest⟩
      | cons line lines =>
        obtain ⟨hline, hlines⟩ := List.forall_mem_cons.mp hsingle
        exact ⟨(b :: line) :: lines, rest, rfl,
          List.forall_mem_cons.mpr ⟨hfirst hline, hlines⟩, hrest⟩

namespace LineBuffer

variable {l l' : LineBuffer} {seen : Bytes} {front pieces : List Bytes}

/-! ### Draining -/

lemma drain_of_unended (h : newline ∉ l.pending) : l.drain = l := by
  rw [drain, dif_neg h]

/-- One turn of the loop. -/
lemma drain_ended {printed : List String} (hline : newline ∉ line) :
    drain ⟨printed, ended line ++ rest⟩ = drain ⟨printed ++ [Utf8.decodeLossy line], rest⟩ := by
  have hbytes : ended line ++ rest = line ++ newline :: rest := by simp [ended]
  have hposition : (line ++ newline :: rest).idxOf newline = line.length := by
    rw [List.idxOf_append_of_notMem hline, List.idxOf_cons_self, Nat.add_zero]
  rw [hbytes, drain, dif_pos (by simp)]
  simp only [hposition, List.take_left, List.drop_length_add_append, List.drop_succ_cons,
    List.drop_zero]

/-- The loop prints all lines of what is pending, each of them as a whole. -/
theorem drain_eq {printed : List String} (h : IsCut bytes lines rest) :
    drain ⟨printed, bytes⟩ = ⟨printed ++ lines.map Utf8.decodeLossy, rest⟩ := by
  obtain ⟨rfl, hsingle, hrest⟩ := h
  induction lines generalizing printed with
  | nil => simpa using drain_of_unended hrest
  | cons line lines ih =>
    obtain ⟨hline, hlines⟩ := List.forall_mem_cons.mp hsingle
    rw [List.flatMap_cons, List.append_assoc, drain_ended hline, ih hlines]
    simp

/-! ### Calls -/

/-- Calls one after the other: what each of them reports, and the buffer after the last. -/
def acceptAll (l : LineBuffer) : List Bytes → List Nat × LineBuffer
  | [] => ([], l)
  | data :: pieces =>
    let (taken, l) := l.accept data
    let (others, l) := l.acceptAll pieces
    (taken :: others, l)

lemma acceptAll_append (l : LineBuffer) (front pieces : List Bytes) :
    l.acceptAll (front ++ pieces)
      = ((l.acceptAll front).1 ++ ((l.acceptAll front).2.acceptAll pieces).1,
        ((l.acceptAll front).2.acceptAll pieces).2) := by
  induction front generalizing l with
  | nil => rfl
  | cons data front ih => simp [acceptAll, ih]

lemma taken_acceptAll (l : LineBuffer) (pieces : List Bytes) :
    (l.acceptAll pieces).1 = pieces.map List.length := by
  induction pieces generalizing l with
  | nil => rfl
  | cons data pieces ih => simp [acceptAll, accept, ih]

/-- What has been seen is in the buffer: its lines are printed, and its rest is pending. -/
def Holds (l : LineBuffer) (seen : Bytes) : Prop :=
  ∃ lines, IsCut seen lines l.pending ∧ l.printed = lines.map Utf8.decodeLossy

lemma holds_empty : empty.Holds [] := ⟨[], .nil, rfl⟩

lemma Holds.unique (h : l.Holds seen) (h' : l'.Holds seen) : l' = l := by
  obtain ⟨printed, pending⟩ := l
  obtain ⟨printed', pending'⟩ := l'
  obtain ⟨lines, hcut, rfl⟩ := h
  obtain ⟨lines', hcut', rfl⟩ := h'
  obtain ⟨rfl, rfl⟩ := hcut.unique hcut'
  rfl

/-- A call adds its bytes to what is held, and nothing that has been printed changes. -/
lemma Holds.accept (h : l.Holds seen) (data : Bytes) :
    (l.accept data).2.Holds (seen ++ data) ∧ l.printed <+: (l.accept data).2.printed := by
  obtain ⟨lines, hcut, hprinted⟩ := h
  obtain ⟨more, rest, hmore⟩ := exists_isCut (l.pending ++ data)
  have hdrain : (l.accept data).2 = ⟨l.printed ++ more.map Utf8.decodeLossy, rest⟩ :=
    drain_eq hmore
  rw [hdrain]
  refine ⟨⟨lines ++ more, hcut.append hmore, ?_⟩, List.prefix_append _ _⟩
  rw [hprinted, List.map_append]

lemma Holds.acceptAll (h : l.Holds seen) (pieces : List Bytes) :
    (l.acceptAll pieces).2.Holds (seen ++ pieces.flatten)
      ∧ l.printed <+: (l.acceptAll pieces).2.printed := by
  induction pieces generalizing l seen with
  | nil => exact ⟨by rwa [List.flatten_nil, List.append_nil], List.prefix_rfl⟩
  | cons data pieces ih =>
    obtain ⟨hheld, hfirst⟩ := h.accept data
    obtain ⟨hall, hothers⟩ := ih hheld
    rw [List.flatten_cons, ← List.append_assoc]
    exact ⟨hall, hfirst.trans hothers⟩

/-! ### Any pieces -/

/-- **Lines are printed as they are completed, however the bytes are cut.** Each call takes all its
bytes. After any calls the lines of all the bytes so far have been printed, in their order and each
read as a whole, and what follows the last line feed is pending; so other calls with the same bytes
leave the same buffer, and calls that follow only print more. -/
theorem lines_completed (pieces : List Bytes) :
    (empty.acceptAll pieces).1 = pieces.map List.length
    ∧ (∃ lines rest, IsCut pieces.flatten lines rest
      ∧ (∀ lines' rest', IsCut pieces.flatten lines' rest' → lines' = lines ∧ rest' = rest)
      ∧ (empty.acceptAll pieces).2 = ⟨lines.map Utf8.decodeLossy, rest⟩)
    ∧ (∀ others : List Bytes, others.flatten = pieces.flatten →
      (empty.acceptAll others).2 = (empty.acceptAll pieces).2)
    ∧ ∀ further, (empty.acceptAll pieces).2.printed
      <+: (empty.acceptAll (pieces ++ further)).2.printed := by
  obtain ⟨hholds, -⟩ := holds_empty.acceptAll pieces
  rw [List.nil_append] at hholds
  refine ⟨taken_acceptAll _ pieces, ?_, fun others hothers => ?_, fun further => ?_⟩
  · obtain ⟨lines, hcut, hprinted⟩ := hholds
    exact ⟨lines, _, hcut, fun _ _ => hcut.unique, by rw [← hprinted]⟩
  · obtain ⟨hholds', -⟩ := holds_empty.acceptAll others
    rw [List.nil_append, hothers] at hholds'
    exact hholds.unique hholds'
  · rw [acceptAll_append]
    exact (hholds.acceptAll further).2

/-- A letter of two bytes arrives in two pieces, an empty piece between them; then come an empty
line, a byte that is no text, and the beginning of another line. -/
theorem lines_completed_split :
    let pieces : List Bytes := [[0x61, 0xC3], [], [0xA9, 10, 10, 0xFF], [10, 0x62]]
    (empty.acceptAll pieces).1 = [2, 0, 4, 2]
      ∧ (empty.acceptAll pieces).2 = ⟨["aé", "", "\uFFFD"], [0x62]⟩
      ∧ (empty.acceptAll [[0x61, 0xC3, 0xA9, 10, 10, 0xFF, 10, 0x62]]).2
        = (empty.acceptAll pieces).2 := by
  intro pieces
  obtain ⟨htaken, ⟨lines, rest, -, hunique, hbuffer⟩, hothers, -⟩ := lines_completed pieces
  have hcut : IsCut pieces.flatten [[0x61, 0xC3, 0xA9], [], [0xFF]] [0x62] :=
    ⟨by decide, by decide, by decide⟩
  obtain ⟨rfl, rfl⟩ := hunique _ _ hcut
  refine ⟨htaken, hbuffer.trans ?_, hothers _ (by decide)⟩
  decide +kernel

end LineBuffer

end DeployClient.Text
