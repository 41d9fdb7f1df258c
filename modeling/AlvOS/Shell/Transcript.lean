import AlvOS.Shell.Dialogue

/-! What is on the screen.  A session writes one long page: the prompts, the lines as they are
typed, and the answers.  The screen is at all times the window on the last rows of it, also in the
middle of a line. -/

namespace AlvOS.Shell
open List Terminal Transition

/-- What the reader sends to the terminal for a character that comes behind `line`. -/
def echoChar (line : List UInt8) (c : UInt8) : List Call :=
  if c = backspace then
    if line = [] then [] else [.putchar backspace, .putchar space, .putchar backspace]
  else if line.length < 255 ∧ 32 ≤ c ∧ c ≤ 126 then [.putchar c] else []

def echoChars (line : List UInt8) : List UInt8 → List Call
  | [] => []
  | c :: cs => echoChar line c ++ echoChars (typeChar line c) cs

def lineOutput (lines : List (List UInt8)) (pre : List UInt8) (ticks : UInt64) : List Call :=
  shellPrompt ++ echoChars [] pre ++ [.putchar newline] ++
    (answer (remembered (lines ++ [typed pre])) ticks (arguments (typed pre))).getD []

/-- What is written for the characters of each line and the time at its end. -/
def dialogue (lines : List (List UInt8)) : List (List UInt8 × UInt64) → List Call
  | [] => []
  | (pre, ticks) :: inputs =>
    lineOutput lines pre ticks ++ dialogue (lines ++ [typed pre]) inputs

/-- A line is typed, and its command does no more than to print. -/
def Exchange.Types : Exchange → List UInt8 × UInt64 → Prop
  | .line chars ticks calls, (pre, ticks') =>
    newline ∉ pre ∧ pre ++ [newline] <+: chars ∧ ticks = ticks' ∧ calls ≠ none
  | .init, _ => False

section Echo
variable {r : Reader} {line pre : List UInt8} {s : Screen} {p : Page}

theorem Shows.calls (h : Shows s p) (calls : List Call) :
    Shows (calls.foldl Call.onScreen s) (calls.foldl Call.onPage p) :=
  foldl_simulation Shows (fun h call => h.call call) h calls

theorem edit_screen (hpos : r.pos = line.length) (c : UInt8) :
    (r.edit c).screen = (echoChar line c).foldl Call.onScreen r.screen := by
  have hempty : line = [] ↔ r.pos = 0 := by rw [hpos, length_eq_zero_iff]
  unfold echoChar
  rw [← hpos]
  obtain ⟨hback, h0, heq⟩ | ⟨hback, hkeep, heq⟩ | ⟨hsame, heq⟩ := r.edit_cases c
  · rw [heq, if_pos hback, if_neg (fun hnil => h0.ne' (hempty.mp hnil))]
    rfl
  · rw [heq, if_neg hback, if_pos hkeep]
    rfl
  · rw [heq]
    split_ifs at hsame ⊢ with hback hnil
    · rfl
    · exact absurd (hempty.mpr hsame) hnil
    · rfl

theorem edits_screen (hpos : r.pos = line.length) (chars : List UInt8) :
    (chars.foldl Reader.edit r).screen = (echoChars line chars).foldl Call.onScreen r.screen := by
  induction chars generalizing r line with
  | nil => rfl
  | cons c chars ih =>
    rw [foldl_cons, ih (Reader.edit_pos hpos), edit_screen hpos, echoChars, foldl_append]

theorem begin_screen (s : Screen) (buffer : Nat → UInt8) (hpre : newline ∉ pre) :
    (shellReadline s buffer pre).1.screen =
      (shellPrompt ++ echoChars [] pre).foldl Call.onScreen s := by
  have hempty : (shellBegin s buffer).pos = ([] : List UInt8).length := rfl
  rw [shellReadline_eq hpre, edits_screen hempty, foldl_append]
  rfl

theorem loop_enter (hpre : newline ∉ pre) (rest : List UInt8) :
    (r.loop (pre ++ newline :: rest)).1 = (pre.foldl Reader.edit r).enter := by
  induction pre generalizing r with
  | nil => rw [nil_append, Reader.loop, if_pos rfl, foldl_nil]
  | cons c pre ih =>
    rw [mem_cons, not_or] at hpre
    rw [cons_append, Reader.loop, if_neg (Ne.symm hpre.1), ih hpre.2, foldl_cons]

theorem afterReading_screen {pl : Places} {s : State} (hpre : newline ∉ pre) (rest : List UInt8) :
    (afterReading pl s (pre ++ newline :: rest)).screen =
      (shellPrompt ++ echoChars [] pre ++ [Call.putchar newline]).foldl Call.onScreen
        s.screen := by
  have hedits := begin_screen s.screen (bufferAt s.history.mem pl.shellBuffer) hpre
  rw [shellReadline_eq hpre] at hedits
  rw [afterReading, shellReadline, loop_enter hpre, foldl_append, ← hedits]
  rfl

end Echo

section Session
variable {lk : Linkage} {s t : State} {exchanges : List Exchange} {lines : List (List UInt8)}
  {inputs : List (List UInt8 × UInt64)} {p : Page} {e : Exchange} {input : List UInt8 × UInt64}

theorem Recalls.screen (h : Recalls lk s lines) (htypes : e.Types input)
    (hstep : (shellSession lk).step s e t) : e.onLines lines = lines ++ [typed input.1] ∧
      t.screen = (lineOutput lines input.1 input.2).foldl Call.onScreen s.screen := by
  cases e with
  | init => exact htypes.elim
  | line chars ticks calls =>
    obtain ⟨pre, ticks'⟩ := input
    obtain ⟨hpre, ⟨rest, rfl⟩, rfl, hcalls⟩ := htypes
    rw [append_assoc, singleton_append] at hstep ⊢
    have hanswer := h.calls_eq hpre hstep
    rw [Exchange.onLines, takeWhile_line hpre]
    obtain ⟨out, rfl⟩ := Option.ne_none_iff_exists'.mp hcalls
    obtain ⟨-, argv, u, ⟨fuel, hturn⟩, -, rfl⟩ := hstep
    refine ⟨rfl, ?_⟩
    rw [lineOutput, ← hanswer, foldl_append, ← afterReading_screen hpre rest,
      ← shellTurn_screen hturn]
    rfl

theorem Recalls.screens (h : Recalls lk s lines) (hrun : (shellSession lk).Run s exchanges t)
    (htypes : Forall₂ Exchange.Types exchanges inputs) :
    t.screen = (dialogue lines inputs).foldl Call.onScreen s.screen := by
  induction hrun generalizing lines inputs with
  | nil s =>
    obtain rfl := forall₂_nil_left_iff.mp htypes
    rfl
  | cons hstep _ ih =>
    obtain ⟨input, inputs, htype, hrest, rfl⟩ := forall₂_cons_left_iff.mp htypes
    obtain ⟨hlines, hscreen⟩ := h.screen htype hstep
    rw [ih (hlines ▸ h.step hstep) hrest, hscreen, dialogue, foldl_append]

end Session

/-- While only commands that print are called: after any lines, and behind any characters of the
next one, the screen is the window on the page of what has been typed and answered so far. -/
theorem screen_shows_dialogue {lk : Linkage} {s t : State} {exchanges : List Exchange}
    (hs : (shellSession lk).init s) {p : Page} (hp : Shows s.screen p)
    (hrun : (shellSession lk).Run s exchanges t) {inputs : List (List UInt8 × UInt64)}
    (htypes : Forall₂ Exchange.Types exchanges inputs) :
    Shows t.screen ((dialogue [] inputs).foldl Call.onPage p) ∧
    ∀ pre buffer, newline ∉ pre → Shows (shellReadline t.screen buffer pre).1.screen
      ((dialogue [] inputs ++ shellPrompt ++ echoChars [] pre).foldl Call.onPage p) := by
  have hscreen := (recalls_init hs).screens hrun htypes
  refine ⟨hscreen ▸ Shows.calls hp _, fun pre buffer hpre => ?_⟩
  rw [begin_screen _ _ hpre, hscreen, append_assoc, ← foldl_append]
  exact Shows.calls hp _

theorem screen_shows_dialogue_echo : ∃ t : State,
    Shows t.screen ((dialogue [] [(text "echo hola", 0)]).foldl Call.onPage
      (pageOf 0 0 7 fun _ => 0)) := by
  have hpre : newline ∉ text "echo hola" := by decide
  have hprints : answer (remembered ([] ++ [typed (text "echo hola")])) 0
      (arguments (typed (text "echo hola"))) ≠ none := by decide
  have hp : Shows linkedStart.screen (pageOf 0 0 7 fun _ => 0) :=
    shows_pageOf (by decide) (by decide) _ _
  obtain ⟨t, hstep⟩ := (recalls_init linkedStart_init).step_line hpre [] 0
  exact ⟨t, (screen_shows_dialogue linkedStart_init hp (.cons hstep (.nil t))
    (.cons ⟨hpre, prefix_rfl, rfl, hprints⟩ .nil)).1⟩

end AlvOS.Shell
