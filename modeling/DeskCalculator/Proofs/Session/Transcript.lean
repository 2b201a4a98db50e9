import DeskCalculator.Proofs.Session.Lines
import DeskCalculator.Session.Run

/-!
# Runs are made of lines

A run cuts its input into lines and takes them one after the other, until there are no more, or one of them
quits, or one is no text. What it returns and writes and the session behind it are those of the lines it has
taken, and the prompt adds to the output and to nothing else (`Session.run_eq_executeAll`).

How an input is cut into lines is said by what its lines end with (`IsCutInto`), which fixes the lines
(`isCutInto_iff`).
-/

namespace DeskCalculator

/-! ## Lines of an input -/

/-- An input and its lines. A line ends with a line feed, and a carriage return in front of that belongs to
the ending; the last line may end with the input. -/
inductive IsCutInto : List UInt8 → List (List UInt8) → Prop where
  | nothing : IsCutInto [] []
  | last {line : List UInt8} : line ≠ [] → 0x0a ∉ line → IsCutInto line [line]
  | feed {line bytes : List UInt8} {lines : List (List UInt8)} : 0x0a ∉ line → line.getLast? ≠ some 0x0d →
      IsCutInto bytes lines → IsCutInto (line ++ 0x0a :: bytes) (line :: lines)
  | returnAndFeed {line bytes : List UInt8} {lines : List (List UInt8)} : 0x0a ∉ line →
      IsCutInto bytes lines → IsCutInto (line ++ 0x0d :: 0x0a :: bytes) (line :: lines)

theorem forall_ne_feed {line : List UInt8} (h : 0x0a ∉ line) : ∀ b ∈ line, (b == 0x0a) = false := by
  intro b hb
  rw [beq_eq_false_iff_ne]
  rintro rfl
  exact h hb

theorem inputLines_of_not_mem {line : List UInt8} (h : 0x0a ∉ line) :
    inputLines line = if line = [] then [] else [line] := by
  rw [inputLines, List.splitOnP_eq_singleton (forall_ne_feed h)]
  cases line with
  | nil => rfl
  | cons b line => rfl

theorem inputLines_append {line : List UInt8} (h : 0x0a ∉ line) (bytes : List UInt8) :
    inputLines (line ++ 0x0a :: bytes) =
      (if line.getLast? = some 0x0d then line.dropLast else line) :: inputLines bytes := by
  have hne := List.splitOnP_ne_nil (· == (0x0a : UInt8)) bytes
  rw [inputLines, List.splitOnP_append_cons_of_forall_mem (forall_ne_feed h) 0x0a rfl]
  rw [List.dropLast_cons_of_ne_nil hne, List.getLast?_cons_of_ne_nil hne]
  rfl

theorem isCutInto_inputLines (bytes : List UInt8) : IsCutInto bytes (inputLines bytes) := by
  induction hlength : bytes.length using Nat.strongRecOn generalizing bytes with
  | ind length ih =>
    by_cases hfeed : 0x0a ∈ bytes
    · obtain ⟨line, rest, rfl, hline⟩ := List.eq_append_cons_of_mem hfeed
      have hrest : IsCutInto rest (inputLines rest) := by
        rw [List.length_append, List.length_cons] at hlength
        exact ih rest.length (by omega) rest rfl
      rw [inputLines_append hline]
      split
      next hreturn =>
        obtain ⟨front, rfl⟩ := List.getLast?_eq_some_iff.1 hreturn
        rw [List.dropLast_concat, List.append_assoc]
        exact .returnAndFeed (fun hmem => hline (List.mem_append_left _ hmem)) hrest
      next hreturn => exact .feed hline hreturn hrest
    · rw [inputLines_of_not_mem hfeed]
      split
      next hnil =>
        rw [hnil]
        exact .nothing
      next hne => exact .last hne hfeed

/-- The lines of an input are the only ones it can be cut into. -/
theorem isCutInto_iff {bytes : List UInt8} {lines : List (List UInt8)} :
    IsCutInto bytes lines ↔ lines = inputLines bytes := by
  constructor
  · intro h
    induction h with
    | nothing => rfl
    | last hne hfeed => rw [inputLines_of_not_mem hfeed, if_neg hne]
    | feed hfeed hreturn _ ih => rw [inputLines_append hfeed, if_neg hreturn, ih]
    | @returnAndFeed line bytes _ hfeed _ ih =>
      have hline : 0x0a ∉ line ++ [0x0d] := by simp [hfeed]
      have hcut := inputLines_append hline bytes
      rw [List.getLast?_concat, if_pos rfl, List.dropLast_concat, List.append_assoc] at hcut
      rw [ih]
      exact hcut.symm
  · rintro rfl
    exact isCutInto_inputLines bytes

/-! ## What is written -/

namespace Reply

/-- What a reply writes to the standard output. -/
def out : Reply → Text
  | output t => t ++ ['\n']
  | _ => []

/-- What a reply writes to the error output. -/
def err (printer : Printer) : Reply → Text
  | error message => printer.error message ++ ['\n']
  | _ => []

end Reply

/-- Why a run takes no more lines. -/
inductive Ending where
  | endOfInput
  | quit
  | unreadable

namespace Ending

/-- Whether a run ends so behind these replies, with these lines left. -/
def Follows (replies : List Reply) (rest : List (List UInt8)) : Ending → Prop
  | endOfInput => .quit ∉ replies ∧ rest = []
  | quit => ∃ before, replies = before ++ [.quit] ∧ .quit ∉ before
  | unreadable => .quit ∉ replies ∧ ∃ line later, rest = line :: later ∧ textOfBytes? line = none

/-- What a run returns that ends so behind a number of lines. -/
def result (count : Nat) : Ending → Except Failure Nat
  | endOfInput | quit => .ok count
  | unreadable => .error .unreadableInput

/-- What the prompt writes at the end: it has asked once more, unless a line has quit, and the output ends with
a line break, unless an error is returned. -/
def asked : Ending → Text
  | endOfInput => ['>', ' ', '\n']
  | quit => ['\n']
  | unreadable => ['>', ' ']

theorem Follows.cons {reply : Reply} (hreply : reply ≠ .quit) {replies : List Reply}
    {rest : List (List UInt8)} {ending : Ending} (h : ending.Follows replies rest) :
    ending.Follows (reply :: replies) rest := by
  have hcons {replies : List Reply} (hquit : .quit ∉ replies) : .quit ∉ reply :: replies := by
    rw [List.mem_cons, not_or]
    exact ⟨hreply.symm, hquit⟩
  cases ending with
  | endOfInput => exact ⟨hcons h.1, h.2⟩
  | quit =>
    obtain ⟨before, rfl, hquit⟩ := h
    exact ⟨reply :: before, rfl, hcons hquit⟩
  | unreadable => exact ⟨hcons h.1, h.2⟩

end Ending

/-- What a run writes that got these replies and ended so. -/
def transcript (prompt : Bool) (printer : Printer) (replies : List Reply) (ending : Ending) : Written where
  out := (replies.flatMap fun reply => (Session.promptText prompt).out ++ reply.out) ++
    if prompt then ending.asked else []
  err := replies.flatMap (Reply.err printer)

theorem transcript_cons (prompt : Bool) (printer : Printer) (reply : Reply) (replies : List Reply)
    (ending : Ending) :
    transcript prompt printer (reply :: replies) ending =
      ((Session.promptText prompt).append ⟨reply.out, reply.err printer⟩).append
        (transcript prompt printer replies ending) := by
  have herr : (Session.promptText prompt).err = [] := rfl
  simp only [transcript, Written.append, herr, List.flatMap_cons, List.append_assoc, List.nil_append]

/-! ## Runs -/

namespace Session

theorem printer_execute (s : Session) (time : Nat) (line : Text) :
    (s.execute time line).2.printer = s.printer := by
  rw [execute_snd]

theorem feed_eq {bytes : List UInt8} {line : Text} (h : textOfBytes? bytes = some line) (s : Session)
    (time : Nat) :
    s.feed time bytes =
      (if (s.execute time line).1 = .quit then .stop else .goOn,
        ⟨(s.execute time line).1.out, (s.execute time line).1.err s.printer⟩,
        (s.execute time line).2) := by
  have hprinter := s.printer_execute time line
  rw [feed, h]
  dsimp only
  generalize s.execute time line = executed at hprinter
  obtain ⟨reply, next⟩ := executed
  cases reply with
  | error message =>
    rw [← hprinter]
    rfl
  | _ => rfl

theorem runLines_eq (s : Session) (clock : Nat → Nat) (count : Nat) (lines : List (List UInt8)) :
    ∃ taken rest texts ending, lines = taken ++ rest ∧ taken.map textOfBytes? = texts.map some ∧
      ending.Follows (s.executeAll clock texts).1 rest ∧
      ∀ prompt, s.runLines prompt clock count lines =
        ⟨ending.result (count + texts.length),
          transcript prompt s.printer (s.executeAll clock texts).1 ending,
          (s.executeAll clock texts).2⟩ := by
  -- Behind a line the run goes on with another session, a clock that has moved on, and one line more.
  induction lines generalizing s clock count with
  | nil => exact ⟨[], [], [], .endOfInput, rfl, rfl, ⟨nofun, rfl⟩, fun prompt => by cases prompt <;> rfl⟩
  | cons line lines ih =>
    cases hread : textOfBytes? line with
    | none =>
      refine ⟨[], line :: lines, [], .unreadable, rfl, rfl, ⟨nofun, line, lines, rfl, hread⟩, fun prompt => ?_⟩
      rw [runLines, turn, feed, hread]
      cases prompt <;> rfl
    | some text =>
      by_cases hquit : (s.execute (clock 0) text).1 = .quit
      · refine ⟨[line], lines, [text], .quit, rfl, by simp [hread], ⟨[], ?_, nofun⟩, fun prompt => ?_⟩
        · rw [executeAll_cons, hquit]
          rfl
        · rw [runLines, turn, feed_eq hread, executeAll_cons, hquit, if_pos rfl]
          cases prompt <;> rfl
      · obtain ⟨taken, rest, texts, ending, rfl, hmap, hfollows, hrun⟩ :=
          ih (s.execute (clock 0) text).2 (fun n => clock (n + 1)) (count + 1)
        refine ⟨line :: taken, rest, text :: texts, ending, rfl, ?_, hfollows.cons hquit, fun prompt => ?_⟩
        · rw [List.map_cons, List.map_cons, hread, hmap]
        · rw [runLines, turn, feed_eq hread, if_neg hquit, executeAll_cons, transcript_cons]
          dsimp only
          rw [hrun prompt, printer_execute, List.length_cons, Nat.add_right_comm]
          rfl

/-- **A run is the lines of its input, executed one after the other.** The input has one cut into lines. A run
takes the first of them, each a text: all of them if none quits, or up to the first that quits, or up to one that
is no text. It returns how many lines it has taken, or in the last case an error; it leaves the session that they
leave, and writes their replies, each with its line break. All of that is so with the prompt and without it, but
for the output, where the prompt asks before each line and at the end. -/
theorem run_eq_executeAll (s : Session) (clock : Nat → Nat) (bytes : List UInt8) :
    (∃! lines, IsCutInto bytes lines) ∧
    ∃ (taken rest : List (List UInt8)) (texts : List Text) (ending : Ending),
      IsCutInto bytes (taken ++ rest) ∧ taken.map textOfBytes? = texts.map some ∧
      ending.Follows (s.executeAll clock texts).1 rest ∧
      (∀ prompt, (s.runTimed prompt clock bytes).lines = ending.result texts.length ∧
        (s.runTimed prompt clock bytes).session = (s.executeAll clock texts).2 ∧
        (s.runTimed prompt clock bytes).written.err =
          (s.executeAll clock texts).1.flatMap (Reply.err s.printer)) ∧
      (s.runTimed false clock bytes).written.out = (s.executeAll clock texts).1.flatMap Reply.out ∧
      (s.runTimed true clock bytes).written.out =
        ((s.executeAll clock texts).1.flatMap fun reply => "> ".toList ++ reply.out) ++ ending.asked := by
  obtain ⟨taken, rest, texts, ending, hlines, hmap, hfollows, hrun⟩ :=
    s.runLines_eq clock 0 (inputLines bytes)
  have hcut : IsCutInto bytes (taken ++ rest) := isCutInto_iff.2 hlines.symm
  have htimed (prompt : Bool) : s.runTimed prompt clock bytes = _ := hrun prompt
  refine ⟨⟨inputLines bytes, isCutInto_inputLines bytes, fun lines h => isCutInto_iff.1 h⟩, taken, rest, texts,
    ending, hcut, hmap, hfollows, fun prompt => ?_, ?_, ?_⟩
  · rw [htimed, Nat.zero_add]
    exact ⟨rfl, rfl, rfl⟩
  · rw [htimed]
    exact List.append_nil _
  · rw [htimed]
    rfl

-- The bytes of the lines `5`, with a carriage return, `/0` and `:q`, and of what is not read any more.
example :
    let run := (Session.new .standard ⟨false⟩).run true 0
      [0x35, 0x0d, 0x0a, 0x2f, 0x30, 0x0a, 0x3a, 0x71, 0x0a, 0x37]
    run.lines = .ok 3 ∧ run.written = ⟨"> 5\n> > \n".toList, "error: Division by zero\n".toList⟩ := by
  decide +kernel

end Session

end DeskCalculator
