import AlvOS.Shell.Lines
import AlvOS.Shell.Parse
import AlvOS.Shell.Roles

/-! Whole sessions.  Every line that is typed passes the line reader, the history, the parser,
the table of commands and its command; what is printed is a function of what has been typed. -/

namespace AlvOS.Shell
open ByteMemory CString Fuel List Set Terminal Transition

/-! ## The arguments of a text -/

/-- The arguments in a text, of which `arg` is the beginning of the one it starts in. -/
def split : Place → List UInt8 → List UInt8 → List (List UInt8)
  | .between, _, [] => []
  | .between, _, c :: cs =>
    if c = space then split .between [] cs
    else if c = quote then split .quoted [] cs
    else split .bare [c] cs
  | .bare, arg, [] => [arg]
  | .bare, arg, c :: cs =>
    if c = space then arg :: split .between [] cs else split .bare (arg ++ [c]) cs
  | .quoted, arg, [] => [arg]
  | .quoted, arg, c :: cs =>
    if c = quote then arg :: split .between [] cs else split .quoted (arg ++ [c]) cs

/-- The first eight arguments that are not empty. -/
def arguments (text : List UInt8) : List (List UInt8) :=
  ((split .between [] text).filter (· ≠ [])).take shellMaxArgs

section Arguments
variable {text arg rest : List UInt8} {p offset gap : Nat} {tokens : List (Nat × List UInt8)}

theorem split_spaces (gap : Nat) (rest : List UInt8) :
    split .between [] (replicate gap space ++ rest) = split .between [] rest := by
  induction gap with
  | zero => rfl
  | succ gap ih =>
    rw [replicate_succ, cons_append, split, if_pos rfl, ih]

theorem split_argument {place : Place} {delimiter : UInt8} (hplace : ∀ acc c cs, c ≠ delimiter →
      split place acc (c :: cs) = split place (acc ++ [c]) cs) (h : delimiter ∉ arg)
    (acc rest : List UInt8) : split place acc (arg ++ rest) = split place (acc ++ arg) rest := by
  induction arg generalizing acc with
  | nil => rw [nil_append, append_nil]
  | cons c arg ih =>
    rw [mem_cons, not_or] at h
    rw [cons_append, hplace acc c _ (Ne.symm h.1), ih h.2, append_assoc, singleton_append]

theorem split_quoted (h : quote ∉ arg) (rest : List UInt8) :
    split .between [] (quote :: (arg ++ rest)) = split .quoted arg rest := by
  rw [split, if_neg (by decide), if_pos rfl]
  exact split_argument (fun acc c cs hc => by rw [split, if_neg hc]) h [] rest

theorem split_bare (hne : arg ≠ []) (hhead : arg.head? ≠ some quote) (hspace : space ∉ arg)
    (rest : List UInt8) : split .between [] (arg ++ rest) = split .bare arg rest := by
  obtain ⟨c, cs, rfl⟩ := exists_cons_of_ne_nil hne
  have hquote : c ≠ quote := fun heq => hhead (by rw [heq, head?_cons])
  rw [mem_cons, not_or] at hspace
  rw [cons_append, split, if_neg (Ne.symm hspace.1), if_neg hquote]
  exact split_argument (fun acc c cs hc => by rw [split, if_neg hc]) hspace.2 [c] rest

theorem First.split (h : First text offset arg gap rest) :
    split .between [] text = arg :: split .between [] rest := by
  cases h with
  | quoted gap hquote => rw [split_quoted hquote, Shell.split, if_pos rfl, split_spaces]
  | unclosed hquote =>
    have hopen := split_quoted hquote []
    rw [append_nil] at hopen
    rw [hopen]
    rfl
  | bare gap hne hhead hspace =>
    rw [split_bare hne hhead hspace, Shell.split, if_pos rfl, split_spaces]
  | last hne hhead hspace =>
    have hopen := split_bare hne hhead hspace []
    rw [append_nil] at hopen
    rw [hopen]
    rfl

theorem Tokens.split (h : Tokens p text tokens) : split .between [] text = tokens.map Prod.snd := by
  induction h with
  | nil => rfl
  | cons hfirst _ _ ih => rw [hfirst.split, ih, map_cons]

theorem Tokens.arguments (h : Tokens p text tokens) (lead : Nat) :
    arguments (replicate lead space ++ text) = (recorded 0 tokens).map Prod.snd := by
  rw [Shell.arguments, split_spaces, h.split, filter_map, ← map_take]
  rfl

theorem Line.arguments {args : List (List UInt8)} (hline : Line args text)
    (hplain : ∀ a ∈ args, Plain a) (hroom : args.length ≤ 8) : arguments text = args := by
  obtain ⟨lead, rest, rfl, hform⟩ := hline
  obtain ⟨tokens, htokens, hmap⟩ := hform.tokens hplain lead
  rw [htokens.arguments, recorded_plain hmap hplain hroom, hmap]

end Arguments

/-! ## The linked image -/

def shellTable : List Row :=
  zipWith (fun e description => (e.1, description, e.2)) shellCommands shellDescriptions

theorem map_shellTable : shellTable.map (fun e => (e.1, e.2.2)) = shellCommands := by decide

def arrays (pl : Places) : Set Nat :=
  Ico pl.shellBuffer (pl.shellBuffer + 256) ∪ historyBytes pl.history ∪
    Ico pl.parseBuffer (pl.parseBuffer + 256)

/-- A string that the shell does not write to. -/
structure Linked (pl : Places) (m : Mem) (p : Nat) (cs : List UInt8) : Prop where
  string : CStr m p cs
  apart : Disjoint (Icc p (p + cs.length)) (arrays pl)

structure Linkage.Loaded (lk : Linkage) (m : Mem) : Prop where
  commands : Forall₂ (Describes (Linked lk.toPlaces m)) lk.commands shellTable
  literals : lk.literals.Hold (Linked lk.toPlaces m)

section Image
variable {lk : Linkage} {m m' : Mem} {S T : Nat → List UInt8 → Prop}

theorem Describes.imp {cmd : Described} {e : Row} (h : Describes S cmd e)
    (hST : ∀ p cs, S p cs → T p cs) : Describes T cmd e :=
  ⟨hST _ _ h.name, hST _ _ h.description, h.function⟩

theorem Examples.Hold.imp {literals : Examples} (h : literals.Hold S)
    (hST : ∀ p cs, S p cs → T p cs) : literals.Hold T := ⟨hST _ _ h.echo, hST _ _ h.uptime⟩

theorem Linkage.Loaded.frame (h : lk.Loaded m) (heq : EqOn m' m (arrays lk.toPlaces)ᶜ) :
    lk.Loaded m' := by
  have hstring (p cs) (hp : Linked lk.toPlaces m p cs) : Linked lk.toPlaces m' p cs :=
    ⟨hp.string.congr (heq.mono hp.apart.subset_compl_right), hp.apart⟩
  exact ⟨h.commands.imp fun _ _ he => he.imp hstring, h.literals.imp hstring⟩

theorem Linkage.Loaded.describes (h : lk.Loaded m) :
    Forall₂ (Describes (CStr m)) lk.commands shellTable :=
  h.commands.imp fun _ _ he => he.imp fun _ _ hp => hp.string

theorem Linkage.Loaded.hold (h : lk.Loaded m) : lk.literals.Hold (CStr m) :=
  h.literals.imp fun _ _ hp => hp.string

theorem Linkage.Loaded.entries (h : lk.Loaded m) :
    Forall₂ (Entry m) (lk.commands.map (·.toCommand)) shellCommands := by
  rw [← map_shellTable, forall₂_map_left_iff, forall₂_map_right_iff]
  exact h.describes.imp fun _ _ he => ⟨he.name, he.function⟩

end Image

/-! ## One line -/

def output (lines : List (List UInt8)) (ticks : UInt64) (args : List (List UInt8)) :
    CommandFunction → Option (List Call)
  | .help => some (helped shellTable args)
  | .echo => some (echoed args)
  | .uptime => some (uptime ticks)
  | .history => some (listing lines)
  | _ => none

def answer (lines : List (List UInt8)) (ticks : UInt64) : List (List UInt8) → Option (List Call)
  | [] => some []
  | name :: args =>
    match outcome name shellCommands with
    | .print calls => some calls
    | .run function => output lines ticks args function

/-- A line has been recorded and parsed, in an image that is still what was linked. -/
structure Ready (lk : Linkage) (h : History) (st : Parsed) (lines args : List (List UInt8)) :
    Prop where
  keeps : Keeps lk.history { h with mem := st.mem } lines
  loaded : lk.Loaded st.mem
  argc : st.argc = args.length
  argv : ∀ i a, args[i]? = some a → CStr st.mem (st.argv i) a

section Answer
variable {lk : Linkage} {s : State} {h : History} {st : Parsed} {pre : List UInt8}
  {lines args : List (List UInt8)}

theorem addLine_ne_nil {cs : List UInt8} (hne : cs ≠ []) (lines : List (List UInt8)) :
    addLine lines cs ≠ [] := by
  rw [addLine, if_pos hne, Recent.push]
  split_ifs with hlast
  · rintro rfl
    exact absurd hlast (by simp)
  · rw [rtake_concat_succ]
    simp

theorem Keeps.enters {pl : Places} {cs : List UInt8} (hk : Keeps pl.history h lines)
    (hcs : CStr h.mem pl.shellBuffer cs) (hshort : cs.length ≤ 255) :
    ∃ h', Returns (fun fuel => enterLine fuel pl h) h' ∧ Keeps pl.history h' (addLine lines cs) ∧
      EqOn h'.mem h.mem (historyBytes pl.history)ᶜ := by
  have hout : Outside pl.history pl.shellBuffer cs := by
    have := pl.buffer_history
    unfold Outside
    omega
  have hgo := Mono.ite (c := 0 < cs.length) (shellAddToHistory_mono pl.history h pl.shellBuffer)
    (.const (some h))
  have hlen := returns_strlen hcs
  cases cs with
  | nil =>
    exact ⟨h, hlen.bind (strlen_mono _ _) hgo (.ite_neg (Nat.lt_irrefl 0) ⟨0, rfl⟩), hk,
      fun x _ => rfl⟩
  | cons c cs =>
    obtain ⟨h', -, hrun, -, -, hk', hframe⟩ := hk.returns_add hcs (Nat.lt_succ_of_le hshort) hout
    exact ⟨h', hlen.bind (strlen_mono _ _) hgo (.ite_pos (Nat.succ_pos _) hrun), hk', hframe⟩

theorem Keeps.ready (hk : Keeps lk.history s.history lines) (hloaded : lk.Loaded s.history.mem)
    (hpre : newline ∉ pre) (rest : List UInt8) (argv : Nat → Nat) :
    ∃ h st, Returns (fun fuel => enterLine fuel lk.toPlaces
        (afterReading lk.toPlaces s (pre ++ newline :: rest)).history) h ∧
      Returns (fun fuel => shellExecuteCommand fuel h.mem lk.parseBuffer lk.shellBuffer argv) st ∧
      Ready lk h st (addLine lines (typed pre)) (arguments (typed pre)) := by
  obtain ⟨-, hholds, hline⟩ := holds_shellReadline s.screen
    (bufferAt s.history.mem lk.shellBuffer) hpre rest
  have hread := afterReading_frame hline
  have hbuffer := lk.buffer_history
  have hshort := hholds.short
  have hsize : shellBufferSize = 256 := rfl
  obtain ⟨h, hret, hk', hframe⟩ :=
    (hk.frame hread hbuffer).enters hholds.afterReading hshort
  have hcs : CStr h.mem lk.shellBuffer (typed pre) := hholds.afterReading.frame hframe (by omega)
  obtain ⟨lead, text, htext, hhead⟩ := exists_spaces (typed pre)
  obtain ⟨tokens, htokens⟩ := exists_tokens lead text hhead
  rw [htext] at hcs hshort hk' ⊢
  rw [length_append, length_replicate] at hshort
  have hparse := lk.buffer_parse
  have hapart : lk.shellBuffer + (lead + text.length) < lk.parseBuffer ∨
      lk.parseBuffer + shellBufferSize ≤ lk.shellBuffer := by omega
  obtain ⟨st, -, hexec, -, -, hcollects⟩ :=
    htokens.returns_shellExecuteCommand hhead (Nat.lt_succ_of_le hshort) argv hcs hapart
  have hrecovers := hcollects.recovers
  have hparsed : EqOn st.mem h.mem (Ico lk.parseBuffer (lk.parseBuffer + 256))ᶜ :=
    hrecovers.frame
  refine ⟨h, st, hret, hexec, hk'.frame hparsed lk.history_parse.symm, ?_, ?_, ?_⟩
  · refine hloaded.frame fun x hx => ?_
    unfold arrays at hx
    rw [mem_compl_iff, mem_union, mem_union, not_or, not_or] at hx
    exact (hparsed hx.2).trans ((hframe hx.1.2).trans (hread hx.1.1))
  · rw [htokens.arguments, hrecovers.count, Nat.zero_add]
  · intro i a ha
    rw [htokens.arguments] at ha
    have hfound := hrecovers.found i a ha
    rwa [Nat.zero_add] at hfound

theorem Ready.yields_builtin {name : List UInt8} (hready : Ready lk h st lines (name :: args))
    (hlines : lines ≠ []) (ticks : UInt64) (function : CommandFunction) :
    (builtin lk { h with mem := st.mem } ticks st.argc st.argv function).Yields
      (· = output lines ticks args function) := by
  have hargs (i a) (ha : args[i]? = some a) : CStr st.mem (st.argv (i + 1)) a :=
    hready.argv (i + 1) a ha
  have hsome {c : Comp (List Call)} {calls : List Call} (hc : c.Yields (· = calls)) :
      (some <$> c).Yields (· = some calls) := by
    refine hc.map.imp ?_
    rintro _ ⟨_, rfl, rfl⟩
    rfl
  rw [hready.argc, length_cons]
  cases function with
  | help => exact hsome (yields_shellCmdHelp hready.loaded.hold hready.loaded.describes hargs)
  | echo => exact hsome (yields_shellCmdEcho hargs)
  | uptime => exact hsome (yields_shellCmdUptime ticks)
  | history => exact hsome (hready.keeps.yields_shellShowHistory hlines)
  | _ => exact Comp.yields_pure.mpr rfl

theorem Ready.yields_callCommand (hready : Ready lk h st lines args)
    (hlines : args ≠ [] → lines ≠ []) (ticks : UInt64) :
    (callCommand lk h ticks st).Yields (· = answer lines ticks args) := by
  have hargc := hready.argc
  unfold callCommand
  cases args with
  | nil =>
    rw [length_nil] at hargc
    rw [if_pos hargc]
    exact Comp.yields_pure.mpr rfl
  | cons name args =>
    rw [length_cons] at hargc
    have hdispatch := returns_dispatch (hready.argv 0 name rfl) hready.loaded.entries
    rw [if_neg (by omega), answer]
    refine Comp.Yields.bind (P := (· = outcome name shellCommands)) ⟨_, hdispatch, rfl⟩ ?_
    rintro _ rfl
    cases outcome name shellCommands with
    | print calls => exact Comp.yields_pure.mpr rfl
    | run function => exact hready.yields_builtin (hlines (cons_ne_nil _ _)) ticks function

/-- A line that is typed is entered in the history, and answered. -/
theorem Keeps.yields_lineCalls (hk : Keeps lk.history s.history lines)
    (hloaded : lk.Loaded s.history.mem) (hpre : newline ∉ pre) (rest : List UInt8)
    (argv : Nat → Nat) (ticks : UInt64) :
    (∃ u, Returns (fun fuel => shellTurn fuel lk.toPlaces argv s (pre ++ newline :: rest)) u ∧
      Keeps lk.history u.history (addLine lines (typed pre)) ∧ lk.Loaded u.history.mem) ∧
    (lineCalls lk ticks argv s (pre ++ newline :: rest)).Yields
      (· = answer (addLine lines (typed pre)) ticks (arguments (typed pre))) := by
  obtain ⟨h, st, hret, hexec, hready⟩ := hk.ready hloaded hpre rest argv
  refine ⟨⟨⟨(afterReading lk.toPlaces s (pre ++ newline :: rest)).screen,
    { h with mem := st.mem }⟩, ?_, hready.keeps, hready.loaded⟩, ?_⟩
  · refine hret.bind (enterLine_mono _ _) ((shellExecuteCommand_mono _ _ _ _).bind fun _ =>
      .const _) ?_
    exact hexec.bind (shellExecuteCommand_mono _ _ _ _) (.const _) ⟨0, rfl⟩
  · have hlines (hne : arguments (typed pre) ≠ []) : addLine lines (typed pre) ≠ [] := by
      refine addLine_ne_nil (fun hnil => hne ?_) lines
      rw [hnil]
      rfl
    refine Comp.Yields.bind (P := (· = h)) ⟨h, hret, rfl⟩ ?_
    rintro _ rfl
    refine Comp.Yields.bind (P := (· = st)) ⟨st, hexec, rfl⟩ ?_
    rintro _ rfl
    exact hready.yields_callCommand hlines ticks

end Answer

/-! ## Sessions -/

/-- A line with the time and what it is answered, or `shell_init`. -/
inductive Exchange
  | line (chars : List UInt8) (ticks : UInt64) (calls : Option (List Call))
  | init

/-- A command that does more than to print may change any memory but the arrays of the shell and
the strings of the image.  `reboot` comes to `shell_init` afterwards. -/
def shellSession (lk : Linkage) : System State Exchange where
  init s := ∃ linked, s = shellInit lk.toPlaces linked ∧ lk.Loaded linked.history.mem ∧
    ∀ i < 10, ∃ row, CStr linked.history.mem (historyRow lk.history i) row ∧ row.length < 256
  step s l t := match l with
    | .line chars ticks calls => newline ∈ chars ∧ ∃ argv u,
        Returns (fun fuel => shellTurn fuel lk.toPlaces argv s chars) u ∧
        Returns (lineCalls lk ticks argv s chars).run calls ∧
        match calls with
        | some calls => t = { u with screen := calls.foldl Call.onScreen u.screen }
        | none => t.history.count = u.history.count ∧ t.history.current = u.history.current ∧
            EqOn t.history.mem u.history.mem (arrays lk.toPlaces) ∧ lk.Loaded t.history.mem
    | .init => ∃ screen, t = { shellInit lk.toPlaces s with screen := screen }

def Exchange.onLines (lines : List (List UInt8)) : Exchange → List (List UInt8)
  | .line chars _ _ => lines ++ [typed (chars.takeWhile (· ≠ newline))]
  | .init => []

/-- The lines that have been typed since `shell_init`. -/
def typedLines (exchanges : List Exchange) : List (List UInt8) := exchanges.foldl Exchange.onLines []

/-- The last ten of the lines that are not empty, of which equal neighbours count once. -/
def remembered (lines : List (List UInt8)) : List (List UInt8) :=
  Recent.recent 10 (lines.filter (· ≠ []))

section Session
variable {lk : Linkage} {s t u : State} {exchanges : List Exchange} {lines : List (List UInt8)}
  {l : Exchange}

structure Recalls (lk : Linkage) (s : State) (lines : List (List UInt8)) : Prop where
  keeps : Keeps lk.history s.history (remembered lines)
  loaded : lk.Loaded s.history.mem

theorem remembered_concat (lines : List (List UInt8)) (cs : List UInt8) :
    remembered (lines ++ [cs]) = addLine (remembered lines) cs := by
  rw [remembered, filter_append, remembered, addLine]
  split_ifs with hne
  · rw [filter_cons_of_pos (by simpa using hne), filter_nil]
    exact Recent.recent_concat (by decide) _ _
  · rw [filter_cons_of_neg (by simpa using hne), filter_nil, append_nil]

theorem Linkage.Loaded.init (h : lk.Loaded s.history.mem) (screen : Screen) :
    lk.Loaded { shellInit lk.toPlaces s with screen := screen }.history.mem := by
  refine h.frame fun x hx => Function.update_of_ne ?_ _ _
  rintro rfl
  exact hx (.inl (.inl ⟨le_refl _, Nat.lt_add_of_pos_right (by decide)⟩))

theorem recalls_init (hs : (shellSession lk).init s) : Recalls lk s [] := by
  obtain ⟨linked, rfl, hloaded, hrows⟩ := hs
  choose! rows hrows using hrows
  have hlinked : Keeps lk.history (historyInit linked.history) [] :=
    ⟨rfl, Nat.zero_le _, rows, hrows, by simp⟩
  exact ⟨Keeps.init (s := ⟨linked.screen, historyInit linked.history⟩) hlinked _,
    hloaded.init linked.screen⟩

theorem takeWhile_line {pre : List UInt8} (hpre : newline ∉ pre) (rest : List UInt8) :
    (pre ++ newline :: rest).takeWhile (· ≠ newline) = pre := by
  rw [takeWhile_append_of_pos (by simpa using fun c hc => ne_of_mem_of_not_mem hc hpre)]
  simp

theorem Recalls.step (h : Recalls lk s lines) (hstep : (shellSession lk).step s l t) :
    Recalls lk t (l.onLines lines) := by
  cases l with
  | init =>
    obtain ⟨screen, rfl⟩ := hstep
    exact ⟨h.keeps.init screen, h.loaded.init screen⟩
  | line chars ticks calls =>
    obtain ⟨hnewline, argv, u, hret, -, hafter⟩ := hstep
    obtain ⟨pre, rest, rfl, hpre⟩ := eq_append_cons_of_mem hnewline
    obtain ⟨⟨u', hret', hkeeps, hloaded⟩, -⟩ :=
      h.keeps.yields_lineCalls h.loaded hpre rest argv ticks
    obtain rfl := hret.unique (shellTurn_mono _ _ _ _) hret'
    rw [Exchange.onLines, takeWhile_line hpre]
    rw [← remembered_concat] at hkeeps
    cases calls with
    | some calls =>
      obtain rfl := hafter
      exact ⟨hkeeps, hloaded⟩
    | none =>
      obtain ⟨hcount, -, heq, hloaded'⟩ := hafter
      have hkeeps' := hkeeps.congr (heq.mono fun x hx => .inl (.inr hx))
      exact ⟨⟨hcount.trans hkeeps'.count, hkeeps'.length_le, hkeeps'.table⟩, hloaded'⟩

theorem Recalls.run (h : Recalls lk s lines) (hrun : (shellSession lk).Run s exchanges t) :
    Recalls lk t (exchanges.foldl Exchange.onLines lines) := by
  induction hrun generalizing lines with
  | nil => exact h
  | cons hstep _ ih => exact ih (h.step hstep)

theorem Recalls.step_line {pre : List UInt8} (h : Recalls lk s lines) (hpre : newline ∉ pre)
    (rest : List UInt8) (ticks : UInt64) :
    ∃ t, (shellSession lk).step s (.line (pre ++ newline :: rest) ticks
      (answer (remembered (lines ++ [typed pre])) ticks (arguments (typed pre)))) t := by
  obtain ⟨⟨u, hret, hkeeps, hloaded⟩, calls, hcalls, rfl⟩ :=
    h.keeps.yields_lineCalls h.loaded hpre rest (fun _ => 0) ticks
  rw [← remembered_concat] at hcalls
  have hnewline : newline ∈ pre ++ newline :: rest := by simp
  cases hanswer : answer (remembered (lines ++ [typed pre])) ticks (arguments (typed pre)) with
  | some calls =>
    rw [hanswer] at hcalls
    exact ⟨_, hnewline, _, u, hret, hcalls, rfl⟩
  | none =>
    rw [hanswer] at hcalls
    exact ⟨u, hnewline, _, u, hret, hcalls, rfl, rfl, fun x _ => rfl, hloaded⟩

theorem Recalls.calls_eq {pre rest : List UInt8} {ticks : UInt64} {calls : Option (List Call)}
    (h : Recalls lk s lines) (hpre : newline ∉ pre)
    (hstep : (shellSession lk).step s (.line (pre ++ newline :: rest) ticks calls) t) :
    calls = answer (remembered (lines ++ [typed pre])) ticks (arguments (typed pre)) := by
  obtain ⟨-, argv, u, -, hcalls, -⟩ := hstep
  rw [remembered_concat]
  exact (h.keeps.yields_lineCalls h.loaded hpre rest argv ticks).2.of_returns hcalls

end Session

/-! ## A linked image -/

/-- An entry of the table every 512 bytes, with its description in the second half. -/
def linkedRow (base : Nat) (e : Row × Nat) : Described where
  name := base + 512 * e.2
  function := e.1.2.2
  description := base + 512 * e.2 + 256

def linkedShell : Linkage where
  toPlaces := linkedPlaces
  commands := shellTable.zipIdx.map (linkedRow 8192)
  literals := ⟨8192 + 512 * 2, 8192 + 512 * 3⟩

def linkedImage : Mem := fun x =>
  if x < 8192 then 0
  else
    let e := shellTable.getD ((x - 8192) / 512) ([], [], .help)
    if (x - 8192) % 512 < 256 then e.1.getD ((x - 8192) % 512) 0
    else e.2.1.getD ((x - 8192) % 512 - 256) 0

theorem shellTable_short :
    ∀ e ∈ shellTable, (e.1.length < 256 ∧ 0 ∉ e.1) ∧ e.2.1.length < 256 ∧ 0 ∉ e.2.1 := by decide

theorem linkedImage_entry {i j : Nat} {e : Row} (he : shellTable[i]? = some e) (hj : j < 512) :
    linkedImage (8192 + 512 * i + j) =
      if j < 256 then e.1.getD j 0 else e.2.1.getD (j - 256) 0 := by
  have hrow : shellTable.getD i ([], [], .help) = e := by
    rw [getD_eq_getElem?_getD, he]
    rfl
  have hdiv : (8192 + 512 * i + j - 8192) / 512 = i := by omega
  have hmod : (8192 + 512 * i + j - 8192) % 512 = j := by omega
  rw [linkedImage, if_neg (by omega), hdiv, hmod, hrow]

theorem linked_linkedImage {i : Nat} {e : Row} (he : shellTable[i]? = some e) :
    Linked linkedPlaces linkedImage (8192 + 512 * i) e.1 ∧
      Linked linkedPlaces linkedImage (8192 + 512 * i + 256) e.2.1 := by
  obtain ⟨⟨hname, hname0⟩, hdesc, hdesc0⟩ := shellTable_short e (mem_of_getElem? he)
  have harrays : ∀ x ∈ arrays linkedPlaces, x < 8192 := by
    rintro x ((⟨-, hx⟩ | ⟨-, hx⟩) | ⟨-, hx⟩)
    all_goals exact hx.trans_le (by decide)
  have happart (p : Nat) (cs : List UInt8) (hp : 8192 ≤ p) :
      Disjoint (Icc p (p + cs.length)) (arrays linkedPlaces) := by
    rw [Set.disjoint_left]
    intro x hx hin
    exact absurd (harrays x hin) (Nat.not_lt.mpr (hp.trans hx.1))
  refine ⟨⟨.of_getD (fun j hj => ?_) hname0, happart _ _ (by omega)⟩,
    ⟨.of_getD (fun j hj => ?_) hdesc0, happart _ _ (by omega)⟩⟩
  · rw [linkedImage_entry he (by omega), if_pos (by omega)]
  · rw [Nat.add_assoc, linkedImage_entry he (by omega), if_neg (by omega), Nat.add_sub_cancel_left]

def linkedStart : State :=
  shellInit linkedPlaces ⟨⟨0, 0, 7, ⟨fun _ => 0, []⟩⟩, ⟨linkedImage, 0, 0⟩⟩

theorem linkedStart_init : (shellSession linkedShell).init linkedStart := by
  refine ⟨_, rfl, ⟨?_, ?_, ?_⟩, fun i hi => ⟨[], ⟨trivial, ?_, by simp⟩, by decide⟩⟩
  · have htable : Forall₂ (Describes (Linked linkedPlaces linkedImage))
        (shellTable.zipIdx.map (linkedRow 8192)) (shellTable.zipIdx.map Prod.fst) := by
      rw [forall₂_map_left_iff, forall₂_map_right_iff, forall₂_same]
      rintro ⟨e, i⟩ he
      obtain ⟨hname, hdesc⟩ := linked_linkedImage (mem_zipIdx_iff_getElem?.mp he)
      exact ⟨hname, hdesc, rfl⟩
    rwa [zipIdx_map_fst] at htable
  · exact (linked_linkedImage (i := 2) rfl).1
  · exact (linked_linkedImage (i := 3) rfl).1
  · change linkedImage (4608 + i * 256 + 0) = 0
    exact if_pos (by omega)

/-! ## What is printed -/

theorem plain_name {e : List UInt8 × CommandFunction} (he : e ∈ shellCommands) : Plain e.1 := by
  have hall : ∀ e ∈ shellCommands, e.1 ≠ [] ∧ 0 ∉ e.1 ∧ quote ∉ e.1 := by decide
  obtain ⟨hne, hnull, hquote⟩ := hall e he
  exact ⟨hne, hnull, hquote⟩

theorem answer_name {e : List UInt8 × CommandFunction} (he : e ∈ shellCommands)
    (lines args : List (List UInt8)) (ticks : UInt64) :
    answer lines ticks (e.1 :: args) = output lines ticks args e.2 := by
  rw [answer, outcome_shellCommands he]

theorem shellTurn_screen {fuel : Nat} {pl : Places} {argv : Nat → Nat} {s u : State}
    {chars : List UInt8} (h : shellTurn fuel pl argv s chars = some u) :
    u.screen = (afterReading pl s chars).screen := by
  obtain ⟨_, -, hrest⟩ := Option.bind_eq_some_iff.mp h
  obtain ⟨_, -, hlast⟩ := Option.bind_eq_some_iff.mp hrest
  rw [← Option.some.inj hlast]

/-- However the arguments of `echo` have been written and edited, they come to the screen with
single spaces between them. -/
theorem echo_writes_back {lk : Linkage} {s t u : State} {exchanges : List Exchange}
    (hs : (shellSession lk).init s) (hrun : (shellSession lk).Run s exchanges t)
    {pre rest : List UInt8} (hpre : newline ∉ pre) {args : List (List UInt8)}
    (hline : Line (text "echo" :: args) (typed pre)) (hplain : ∀ a ∈ args, Plain a)
    (hroom : args.length ≤ 7) {ticks : UInt64} {calls : Option (List Call)}
    (hstep : (shellSession lk).step t (.line (pre ++ newline :: rest) ticks calls) u) :
    u.screen = terminalWrite (afterReading lk.toPlaces t (pre ++ newline :: rest)).screen
      (intercalate [space] args ++ [newline]) := by
  have hmem : (text "echo", CommandFunction.echo) ∈ shellCommands := by decide
  have hargs := hline.arguments (forall_mem_cons.mpr ⟨plain_name hmem, hplain⟩)
    (Nat.succ_le_succ hroom)
  have hcalls := ((recalls_init hs).run hrun).calls_eq hpre hstep
  rw [hargs, answer_name hmem] at hcalls
  subst hcalls
  obtain ⟨-, argv, v, hret, -, rfl⟩ := hstep
  obtain ⟨fuel, hturn⟩ := hret
  rw [← shellTurn_screen hturn]
  exact echoed_onScreen args v.screen

/-- A quoted argument, and a bare one behind some spaces. -/
theorem echo_writes_back_two : ∃ calls u,
    (shellSession linkedShell).step linkedStart
      (.line (text "echo \"a b\"   c" ++ [newline]) 0 calls) u ∧
    u.screen = terminalWrite (afterReading linkedPlaces linkedStart
      (text "echo \"a b\"   c" ++ [newline])).screen (text "a b c" ++ [newline]) := by
  have hpre : newline ∉ text "echo \"a b\"   c" := by decide
  have hplain : ∀ a ∈ [text "a b", text "c"], Plain a := by
    rw [forall_mem_cons, forall_mem_singleton]
    exact ⟨⟨by decide, by decide, by decide⟩, ⟨by decide, by decide, by decide⟩⟩
  have hform : Form [text "echo", text "a b", text "c"] (text "echo \"a b\"   c") :=
    .cons 1 (.bare (by decide)) (fun _ => Nat.one_pos) (.cons 3 .quoted (fun _ => by decide)
      (.cons 0 (.bare (by decide)) (fun hne => absurd rfl hne) .nil))
  have htyped : typed (text "echo \"a b\"   c") = text "echo \"a b\"   c" := by decide
  have hspaces : intercalate [space] [text "a b", text "c"] = text "a b c" := by decide
  obtain ⟨u, hstep⟩ := (recalls_init linkedStart_init).step_line hpre [] 0
  have hscreen := echo_writes_back linkedStart_init (.nil _) hpre
    ⟨0, _, htyped, hform⟩ hplain (by decide) hstep
  rw [hspaces] at hscreen
  exact ⟨_, u, hstep, hscreen⟩

/-- The time of `uptime` reads back: hours, and minutes and seconds in two digits each. -/
theorem uptime_reads_back {lk : Linkage} {s t u : State} {exchanges : List Exchange}
    (hs : (shellSession lk).init s) (hrun : (shellSession lk).Run s exchanges t)
    {pre rest : List UInt8} (hpre : newline ∉ pre)
    (hname : (arguments (typed pre)).head? = some (text "uptime")) {ticks : UInt64}
    {calls : Option (List Call)}
    (hstep : (shellSession lk).step t (.line (pre ++ newline :: rest) ticks calls) u) :
    ∃ out hours minutes secs, calls = some out ∧
      out.flatMap characters = (uptimeHead (ticks.toNat / 100)).flatMap characters ++
        (hours ++ [58] ++ minutes ++ [58] ++ secs) ++ [newline] ∧
      2 ≤ hours.length ∧ minutes.length = 2 ∧ secs.length = 2 ∧
      ∃ h m s, Numeral.read asciiDigit 10 hours = some h ∧
        Numeral.read asciiDigit 10 minutes = some m ∧ Numeral.read asciiDigit 10 secs = some s ∧
        m < 60 ∧ s < 60 ∧ 3600 * h + 60 * m + s = ticks.toNat / 100 := by
  obtain ⟨args, hargs⟩ : ∃ args, arguments (typed pre) = text "uptime" :: args :=
    ⟨_, eq_cons_of_mem_head? hname⟩
  have hmem : (text "uptime", CommandFunction.uptime) ∈ shellCommands := by decide
  have hcalls := ((recalls_init hs).run hrun).calls_eq hpre hstep
  rw [hargs, answer_name hmem] at hcalls
  obtain ⟨hread, hlen, -⟩ := padded_reads_back (ticks.toNat / 100 / 3600)
  obtain ⟨hread', -, hlen'⟩ := padded_reads_back (ticks.toNat / 100 % 3600 / 60)
  obtain ⟨hread'', -, hlen''⟩ := padded_reads_back (ticks.toNat / 100 % 60)
  refine ⟨_, _, _, _, hcalls, ?_, hlen, hlen' (by omega), hlen'' (by omega), _, _, _, hread, hread',
    hread'', by omega, by omega, by omega⟩
  rw [uptime, clock]
  simp only [flatMap_append]
  rfl

theorem uptime_reads_back_hour : ∃ calls u out before hours minutes secs,
    (shellSession linkedShell).step linkedStart
      (.line (text "uptime" ++ [newline]) 366100 calls) u ∧ calls = some out ∧
    out.flatMap characters = before ++ (hours ++ [58] ++ minutes ++ [58] ++ secs) ++ [newline] ∧
    2 ≤ hours.length ∧ minutes.length = 2 ∧ secs.length = 2 := by
  have hpre : newline ∉ text "uptime" := by decide
  obtain ⟨u, hstep⟩ := (recalls_init linkedStart_init).step_line hpre [] 366100
  obtain ⟨out, hours, minutes, secs, hout, hsent, hlen, hlen', hlen'', -⟩ :=
    uptime_reads_back linkedStart_init (.nil _) hpre (by decide) hstep
  exact ⟨_, u, out, _, hours, minutes, secs, hstep, hout, hsent, hlen, hlen', hlen''⟩

end AlvOS.Shell
