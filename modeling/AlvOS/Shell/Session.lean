import AlvOS.Shell.History
import AlvOS.Shell.Readline
import AlvOS.Shell.Roles

/-! Line after line.  A line is edited in one buffer, copied to a row of the history and copied
again to be parsed; the editor alone limits its length. -/

namespace AlvOS.Shell
open ByteMemory CString Fuel Set Function Terminal Transition

/-- The buffer holds the line, and the position is behind its last character. -/
structure Reader.Holds (r : Reader) (line : List UInt8) : Prop where
  string : CStr r.buffer 0 line
  pos_eq : r.pos = line.length
  short : line.length ≤ 255

section Line
variable {r : Reader} {line : List UInt8} {c : UInt8}

theorem Reader.Holds.edit (h : r.Holds line) (c : UInt8) : (r.edit c).Holds (typeChar line c) := by
  have hpos := h.pos_eq
  have hplace : 0 + line.length = r.pos := by omega
  obtain ⟨rfl, hsome, heq⟩ | ⟨hback, hkeep, heq⟩ | ⟨hsame, heq⟩ := r.edit_cases c
  · have hne : line ≠ [] := by
      rintro rfl
      rw [List.length_nil] at hpos
      omega
    have hstring := h.string.dropLast hne
    have hshort := h.short
    have hlength : line.dropLast.length = r.pos - 1 := by rw [List.length_dropLast, hpos]
    rw [Nat.zero_add, ← hpos] at hstring
    rw [typeChar, if_pos rfl, heq]
    exact ⟨hstring, hlength.symm, by omega⟩
  · have hzero : c ≠ 0 := by
      rintro rfl
      exact absurd hkeep.2.1 (by decide)
    have hstring := h.string.concat hzero
    have hlength : (line ++ [c]).length = r.pos + 1 := by
      rw [List.length_append, List.length_singleton, hpos]
    rw [hplace] at hstring
    rw [typeChar, if_neg hback, if_pos (by rwa [← hpos]), heq]
    exact ⟨hstring, hlength.symm, by omega⟩
  · have hline : typeChar line c = line := by
      unfold typeChar
      split_ifs at hsame ⊢ with h1 h2
      · rw [hpos, List.length_eq_zero_iff] at hsame
        rw [hsame, List.dropLast_nil]
      · exact absurd ⟨by omega, h2.2⟩ hsame
      · rfl
    rw [hline, heq]
    exact h

theorem Reader.Holds.enter (h : r.Holds line) : r.enter.Holds line := by
  have hbuffer : r.enter.buffer = update r.buffer r.pos 0 := rfl
  refine ⟨⟨?_, ?_, h.string.inner⟩, h.pos_eq, h.short⟩
  · refine h.string.spells.congr fun x hx => ?_
    have := hx.2
    have hpos := h.pos_eq
    rw [hbuffer, update_of_ne (by omega)]
  · rw [hbuffer, Nat.zero_add, ← h.pos_eq, update_self]

theorem Reader.Holds.editStores_lt (h : r.Holds line) : ∀ i ∈ r.editStores c, i < 256 := by
  have hpos := h.pos_eq
  have hshort := h.short
  have hsize : shellBufferSize = 256 := rfl
  intro i hi
  unfold Reader.editStores at hi
  split_ifs at hi with h1 h2 h3
  · rw [List.mem_singleton] at hi
    omega
  · cases hi
  · rw [List.mem_cons, List.mem_singleton] at hi
    omega
  · cases hi

theorem Reader.edit_frame {i : Nat} (hi : i ∉ r.editStores c) : (r.edit c).buffer i = r.buffer i := by
  unfold Reader.editStores at hi
  unfold Reader.edit
  split_ifs at hi ⊢ with h1 h2 h3
  · rw [List.mem_singleton] at hi
    exact update_of_ne hi _ _
  · rfl
  · rw [List.mem_cons, List.mem_singleton, not_or] at hi
    change update (update r.buffer r.pos c) (r.pos + 1) 0 i = r.buffer i
    rw [update_of_ne hi.2, update_of_ne hi.1]
  · rfl

theorem Reader.loop_frame {chars : List UInt8} {i : Nat} (hi : i ∉ r.loopStores chars) :
    (r.loop chars).1.buffer i = r.buffer i := by
  induction chars generalizing r with
  | nil => rfl
  | cons c chars ih =>
    rw [Reader.loopStores] at hi
    rw [Reader.loop]
    split_ifs at hi ⊢ with hc
    · rw [List.mem_singleton] at hi
      exact update_of_ne hi _ _
    · rw [List.mem_append, not_or] at hi
      rw [ih hi.2, Reader.edit_frame hi.1]

theorem Reader.Holds.loop {chars : List UInt8} (h : r.Holds line) (hchars : newline ∉ chars)
    (rest : List UInt8) :
    (r.loop (chars ++ newline :: rest)).2 = true ∧
      (r.loop (chars ++ newline :: rest)).1.Holds (chars.foldl typeChar line) ∧
      ∀ i ∈ r.loopStores (chars ++ newline :: rest), i < 256 := by
  induction chars generalizing r line with
  | nil =>
    have hpos := h.pos_eq
    have hshort := h.short
    rw [List.nil_append, Reader.loop, if_pos rfl, Reader.loopStores, if_pos rfl]
    refine ⟨rfl, h.enter, fun i hi => ?_⟩
    rw [List.mem_singleton] at hi
    omega
  | cons c chars ih =>
    rw [List.mem_cons, not_or] at hchars
    rw [List.cons_append, Reader.loop, if_neg (Ne.symm hchars.1), Reader.loopStores,
      if_neg (Ne.symm hchars.1)]
    obtain ⟨hreturns, hholds, hstores⟩ := ih (h.edit c) hchars.2
    exact ⟨hreturns, hholds, fun i hi =>
      (List.mem_append.mp hi).elim (h.editStores_lt i) (hstores i)⟩

theorem holds_begin (s : Screen) (buffer : Nat → UInt8) : (shellBegin s buffer).Holds [] :=
  ⟨⟨trivial, rfl, by simp⟩, rfl, Nat.zero_le _⟩

end Line

structure Places where
  shellBuffer : Nat
  history : Nat
  parseBuffer : Nat
  buffer_history : shellBuffer + 256 ≤ history ∨ history + 2560 ≤ shellBuffer
  buffer_parse : shellBuffer + 256 ≤ parseBuffer ∨ parseBuffer + 256 ≤ shellBuffer
  history_parse : history + 2560 ≤ parseBuffer ∨ parseBuffer + 256 ≤ history

structure State where
  screen : Screen
  history : History

/-- The memory from `shellBuffer` on as `shell_buffer`. -/
def bufferAt (m : Mem) (shellBuffer : Nat) : Nat → UInt8 := fun i => m (shellBuffer + i)

def withBuffer (m : Mem) (shellBuffer : Nat) (buffer : Nat → UInt8) : Mem :=
  fun x => if shellBuffer ≤ x then buffer (x - shellBuffer) else m x

/-- `if (strlen(shell_buffer) > 0) shell_add_to_history(shell_buffer)`. -/
def enterLine (fuel : Nat) (pl : Places) (h : History) : Option History := do
  let len ← strlen fuel h.mem pl.shellBuffer
  if 0 < len then shellAddToHistory fuel pl.history h pl.shellBuffer else some h

/-- The shell once `shell_readline` has read a line from `chars`, before its return. -/
def afterReading (pl : Places) (s : State) (chars : List UInt8) : State :=
  let r := (shellReadline s.screen (bufferAt s.history.mem pl.shellBuffer) chars).1
  { screen := r.screen
    history := { s.history with mem := withBuffer s.history.mem pl.shellBuffer r.buffer } }

/-- One turn of the loop of `shell_run`, up to the command that is called.  `argv` is on the
stack and holds anything before. -/
def shellTurn (fuel : Nat) (pl : Places) (argv : Nat → Nat) (s : State) (chars : List UInt8) :
    Option State := do
  let s := afterReading pl s chars
  let h ← enterLine fuel pl s.history
  let st ← shellExecuteCommand fuel h.mem pl.parseBuffer pl.shellBuffer argv
  some { s with history := { h with mem := st.mem } }

/-- What one turn stores to: indices of `shell_buffer`, rows of the history with indices in them,
and bytes and entries that the parser writes. -/
structure TurnStores where
  line : List Nat
  rows : List (Nat × Nat)
  parsed : List Store

def enterLineStores (fuel : Nat) (pl : Places) (h : History) : Option (List (Nat × Nat)) := do
  let len ← strlen fuel h.mem pl.shellBuffer
  if 0 < len then shellAddToHistoryStores fuel pl.history h pl.shellBuffer else some []

def shellTurnStores (fuel : Nat) (pl : Places) (argv : Nat → Nat) (s : State)
    (chars : List UInt8) : Option TurnStores := do
  let line := shellReadlineStores s.screen (bufferAt s.history.mem pl.shellBuffer) chars
  let s := afterReading pl s chars
  let rows ← enterLineStores fuel pl s.history
  let h ← enterLine fuel pl s.history
  let parsed ← shellExecuteCommandStores fuel h.mem pl.parseBuffer pl.shellBuffer argv
  some ⟨line, rows, parsed⟩

structure TurnStores.Within (pl : Places) (stores : TurnStores) : Prop where
  line : ∀ i ∈ stores.line, i < 256
  rows : InRows stores.rows
  parsed : ∀ w ∈ stores.parsed, w.Within pl.parseBuffer (pl.parseBuffer + 256)

def shellInit (pl : Places) (s : State) : State :=
  { s with history := historyInit { s.history with mem := update s.history.mem pl.shellBuffer 0 } }

/-- What changes from turn to turn: a line is read and its command is called, or the shell is
initialised again, as `reboot` does. -/
inductive Turn
  | line (chars : List UInt8)
  | init

/-- A command may print, and change any memory but the arrays of the shell. -/
def shellSystem (pl : Places) : System State Turn where
  init s := ∃ linked, s = shellInit pl linked ∧
    ∀ i < 10, ∃ row, CStr linked.history.mem (historyRow pl.history i) row ∧ row.length < 256
  step s l t := match l with
    | .line chars => newline ∈ chars ∧ ∃ argv u, Returns (fun fuel => shellTurn fuel pl argv s chars) u ∧
        t.history.count = u.history.count ∧ t.history.current = u.history.current ∧
        EqOn t.history.mem u.history.mem (Ico pl.shellBuffer (pl.shellBuffer + 256) ∪
          historyBytes pl.history ∪ Ico pl.parseBuffer (pl.parseBuffer + 256))
    | .init => ∃ screen, t = { shellInit pl s with screen := screen }

section Turn
variable {pl : Places} {s : State} {m : Mem} {h : History} {lines : List (List UInt8)}
  {cs pre rest : List UInt8} {input parseBuffer : Nat}

theorem enterLine_mono (pl : Places) (h : History) : Mono fun fuel => enterLine fuel pl h :=
  (strlen_mono _ _).bind fun _ => .ite (shellAddToHistory_mono _ _ _) (.const _)

theorem enterLineStores_mono (pl : Places) (h : History) :
    Mono fun fuel => enterLineStores fuel pl h :=
  (strlen_mono _ _).bind fun _ => .ite (shellAddToHistoryStores_mono _ _ _) (.const _)

theorem returns_shellExecuteCommand (hcs : CStr m input cs) (hshort : cs.length < 256)
    (hapart : input + cs.length < parseBuffer ∨ parseBuffer + shellBufferSize ≤ input)
    (argv : Nat → Nat) :
    ∃ st stores, Returns (fun fuel => shellExecuteCommand fuel m parseBuffer input argv) st ∧
      Returns (fun fuel => shellExecuteCommandStores fuel m parseBuffer input argv) stores ∧
      (∀ w ∈ stores, w.Within parseBuffer (parseBuffer + shellBufferSize)) ∧
      ∀ x ∉ Ico parseBuffer (parseBuffer + shellBufferSize), st.mem x = m x := by
  obtain ⟨lead, rest, rfl, hhead⟩ := exists_spaces cs
  obtain ⟨tokens, htokens⟩ := exists_tokens lead rest hhead
  rw [List.length_append, List.length_replicate] at hshort hapart
  obtain ⟨st, stores, hret, hstores, hwithin, hcollects⟩ :=
    htokens.returns_shellExecuteCommand hhead hshort argv hcs hapart
  exact ⟨st, stores, hret, hstores, hwithin, hcollects.recovers.frame⟩

theorem Keeps.returns_enterLine (hk : Keeps pl.history h lines) (hcs : CStr h.mem pl.shellBuffer cs)
    (hshort : cs.length ≤ 255) :
    ∃ h' rows lines', Returns (fun fuel => enterLine fuel pl h) h' ∧
      Returns (fun fuel => enterLineStores fuel pl h) rows ∧ InRows rows ∧
      Keeps pl.history h' lines' ∧ EqOn h'.mem h.mem (historyBytes pl.history)ᶜ := by
  have hlen := returns_strlen hcs
  have hout : Outside pl.history pl.shellBuffer cs := by
    have := pl.buffer_history
    unfold Outside
    omega
  have hgo := Mono.ite (c := 0 < cs.length) (shellAddToHistory_mono pl.history h pl.shellBuffer)
    (.const (some h))
  have hgoStores := Mono.ite (c := 0 < cs.length)
    (shellAddToHistoryStores_mono pl.history h pl.shellBuffer) (.const (some []))
  by_cases hempty : 0 < cs.length
  · obtain ⟨h', rows, hrun, hruns, hin, hk', hframe⟩ := hk.returns_add hcs (by omega) hout
    exact ⟨h', rows, _, hlen.bind (strlen_mono _ _) hgo (.ite_pos hempty hrun),
      hlen.bind (strlen_mono _ _) hgoStores (.ite_pos hempty hruns), hin, hk', hframe⟩
  · exact ⟨h, [], lines, hlen.bind (strlen_mono _ _) hgo (.ite_neg hempty ⟨0, rfl⟩),
      hlen.bind (strlen_mono _ _) hgoStores (.ite_neg hempty ⟨0, rfl⟩), by simp [InRows], hk,
      fun x _ => rfl⟩

theorem holds_shellReadline (screen : Screen) (buffer : Nat → UInt8) (hpre : newline ∉ pre)
    (rest : List UInt8) :
    (shellReadline screen buffer (pre ++ newline :: rest)).2 = true ∧
      (shellReadline screen buffer (pre ++ newline :: rest)).1.Holds (typed pre) ∧
      ∀ i ∈ shellReadlineStores screen buffer (pre ++ newline :: rest), i < 256 := by
  obtain ⟨hreturns, hholds, hstores⟩ := (holds_begin screen buffer).loop hpre rest
  refine ⟨hreturns, hholds, fun i hi => ?_⟩
  rcases List.mem_cons.mp hi with rfl | hi
  · decide
  · exact hstores i hi

theorem shellReadline_frame (screen : Screen) (buffer : Nat → UInt8) {chars : List UInt8} {i : Nat}
    (hi : i ∉ shellReadlineStores screen buffer chars) :
    (shellReadline screen buffer chars).1.buffer i = buffer i := by
  rw [shellReadlineStores, List.mem_cons, not_or] at hi
  rw [shellReadline, Reader.loop_frame hi.2]
  exact update_of_ne hi.1 _ _

theorem afterReading_frame {chars : List UInt8}
    (hline : ∀ i ∈ shellReadlineStores s.screen (bufferAt s.history.mem pl.shellBuffer) chars,
      i < 256) :
    EqOn (afterReading pl s chars).history.mem s.history.mem
      (Ico pl.shellBuffer (pl.shellBuffer + 256))ᶜ := by
  intro x hx
  dsimp only [afterReading, withBuffer]
  split_ifs with hle
  · have hplace : pl.shellBuffer + (x - pl.shellBuffer) = x := Nat.add_sub_cancel' hle
    rw [shellReadline_frame _ _ fun hi => hx ⟨hle, ?_⟩, bufferAt, hplace]
    have hlt := hline _ hi
    omega
  · rfl

theorem Reader.Holds.afterReading {chars line : List UInt8}
    (hholds : (shellReadline s.screen (bufferAt s.history.mem pl.shellBuffer) chars).1.Holds line) :
    CStr (afterReading pl s chars).history.mem pl.shellBuffer line := by
  refine hholds.string.move fun i _ => ?_
  dsimp only [Shell.afterReading, withBuffer]
  rw [if_pos (Nat.le_add_right _ _), Nat.add_sub_cancel_left, Nat.zero_add]

/-- The line is edited, entered and parsed, each in an array of its own. -/
theorem Keeps.returns_shellTurn (hk : Keeps pl.history s.history lines) (hpre : newline ∉ pre)
    (rest : List UInt8) (argv : Nat → Nat) :
    ∃ u stores lines', Returns (fun fuel => shellTurn fuel pl argv s (pre ++ newline :: rest)) u ∧
      Returns (fun fuel => shellTurnStores fuel pl argv s (pre ++ newline :: rest)) stores ∧
      stores.Within pl ∧ Keeps pl.history u.history lines' := by
  obtain ⟨-, hholds, hline⟩ := holds_shellReadline s.screen
    (bufferAt s.history.mem pl.shellBuffer) hpre rest
  have hbuffer := pl.buffer_history
  have hshort := hholds.short
  have hsize : shellBufferSize = 256 := rfl
  -- the history is where it was while the line is edited
  have hk1 : Keeps pl.history (afterReading pl s (pre ++ newline :: rest)).history lines :=
    hk.frame (afterReading_frame hline) hbuffer
  obtain ⟨h2, rows, lines', hrun, hruns, hin, hk2, hframe⟩ :=
    hk1.returns_enterLine hholds.afterReading hshort
  -- and the line is where it was once it has been recorded
  have hcs2 : CStr h2.mem pl.shellBuffer (typed pre) := hholds.afterReading.frame hframe (by omega)
  have hparse : pl.shellBuffer + (typed pre).length < pl.parseBuffer ∨
      pl.parseBuffer + shellBufferSize ≤ pl.shellBuffer := by
    have := pl.buffer_parse
    omega
  obtain ⟨st, parsed, hexec, hexecs, hwithin, hkept⟩ :=
    returns_shellExecuteCommand hcs2 (Nat.lt_succ_of_le hshort) hparse argv
  refine ⟨⟨(afterReading pl s (pre ++ newline :: rest)).screen, { h2 with mem := st.mem }⟩,
    ⟨_, rows, parsed⟩, lines', ?_, ?_, ⟨hline, hin, hwithin⟩,
    hk2.frame (fun x hx => hkept x hx) pl.history_parse.symm⟩
  · refine hrun.bind (enterLine_mono _ _) ((shellExecuteCommand_mono _ _ _ _).bind fun _ =>
      .const _) ?_
    exact hexec.bind (shellExecuteCommand_mono _ _ _ _) (.const _) ⟨0, rfl⟩
  · refine hruns.bind (enterLineStores_mono _ _) ((enterLine_mono _ _).bind fun _ =>
      (shellExecuteCommandStores_mono _ _ _ _).bind fun _ => .const _) ?_
    refine hrun.bind (enterLine_mono _ _) ((shellExecuteCommandStores_mono _ _ _ _).bind fun _ =>
      .const _) ?_
    exact hexecs.bind (shellExecuteCommandStores_mono _ _ _ _) (.const _) ⟨0, rfl⟩

theorem shellTurn_mono (pl : Places) (argv : Nat → Nat) (s : State) (chars : List UInt8) :
    Mono fun fuel => shellTurn fuel pl argv s chars :=
  (enterLine_mono _ _).bind fun _ => (shellExecuteCommand_mono _ _ _ _).bind fun _ => .const _

theorem Keeps.init (hk : Keeps pl.history s.history lines) (screen : Screen) :
    Keeps pl.history { shellInit pl s with screen := screen }.history [] := by
  have hplaces := pl.buffer_history
  have hk' := hk.congr (m := update s.history.mem pl.shellBuffer 0) fun x ⟨hlo, hhi⟩ =>
    update_of_ne (by omega) _ _
  obtain ⟨rows, htable, -⟩ := hk'.table
  exact ⟨rfl, Nat.zero_le _, rows, htable, by simp⟩

theorem exists_keeps (hs : (shellSystem pl).Reachable s) :
    ∃ lines, Keeps pl.history s.history lines := by
  refine hs.invariant (P := fun s => ∃ lines, Keeps pl.history s.history lines) ?_ ?_
  · rintro s ⟨linked, rfl, hrows⟩
    choose! rows hrows using hrows
    have hlinked : Keeps pl.history (historyInit linked.history) [] :=
      ⟨rfl, Nat.zero_le _, rows, hrows, by simp⟩
    exact ⟨[], Keeps.init (s := ⟨linked.screen, historyInit linked.history⟩) hlinked _⟩
  · rintro s l t ⟨lines, hk⟩ hstep
    cases l with
    | line chars =>
      obtain ⟨hnewline, argv, u, hret, hcount, -, heq⟩ := hstep
      obtain ⟨pre, rest, rfl, hpre⟩ := List.eq_append_cons_of_mem hnewline
      obtain ⟨u', -, lines', hret', -, -, hk'⟩ := hk.returns_shellTurn hpre rest argv
      obtain rfl := hret.unique (shellTurn_mono _ _ _ _) hret'
      have hk'' := hk'.congr (heq.mono fun x hx => .inl (.inr hx))
      exact ⟨lines', hcount.trans hk''.count, hk''.length_le, hk''.table⟩
    | init =>
      obtain ⟨screen, rfl⟩ := hstep
      exact ⟨[], hk.init screen⟩

end Turn

/-- The line read is what the characters before the first newline amount to, as a string in the
buffer; and after any number of lines the next one is read, recorded and parsed without a
store that leaves an array. -/
theorem line_editing {pl : Places} {s : State} (hs : (shellSystem pl).Reachable s)
    {pre : List UInt8} (hpre : newline ∉ pre) (rest : List UInt8) (argv : Nat → Nat) :
    (∀ screen buffer,
      (shellReadline screen buffer (pre ++ newline :: rest)).2 = true ∧
      CStr (shellReadline screen buffer (pre ++ newline :: rest)).1.buffer 0 (typed pre)) ∧
    ∃ u stores, Returns (fun fuel => shellTurn fuel pl argv s (pre ++ newline :: rest)) u ∧
      Returns (fun fuel => shellTurnStores fuel pl argv s (pre ++ newline :: rest)) stores ∧
      stores.Within pl := by
  obtain ⟨lines, hk⟩ := exists_keeps hs
  refine ⟨fun screen buffer => ?_, ?_⟩
  · obtain ⟨hreturns, hholds, -⟩ := holds_shellReadline screen buffer hpre rest
    exact ⟨hreturns, hholds.string⟩
  · obtain ⟨u, stores, -, hret, hrets, hwithin, -⟩ := hk.returns_shellTurn hpre rest argv
    exact ⟨u, stores, hret, hrets, hwithin⟩

def linkedPlaces : Places where
  shellBuffer := 4096
  history := 4608
  parseBuffer := 4352
  buffer_history := .inl (by decide)
  buffer_parse := .inl (by decide)
  history_parse := .inr (by decide)

def linkedState : State := shellInit linkedPlaces ⟨⟨0, 0, 7, ⟨fun _ => 0, []⟩⟩, linkedHistory⟩

theorem linkedState_reachable : (shellSystem linkedPlaces).Reachable linkedState :=
  .init ⟨_, rfl, fun i _ => ⟨[], ⟨trivial, rfl, by simp⟩, by decide⟩⟩

/-- Two characters, of which the second is taken back. -/
theorem line_editing_backspace :
    CStr (shellReadline linkedState.screen (fun _ => 0) [97, 98, backspace, newline]).1.buffer 0
        [97] ∧
      ∃ u stores, Returns (fun fuel =>
          shellTurn fuel linkedPlaces (fun _ => 0) linkedState [97, 98, backspace, newline]) u ∧
        Returns (fun fuel => shellTurnStores fuel linkedPlaces (fun _ => 0) linkedState
          [97, 98, backspace, newline]) stores ∧ stores.Within linkedPlaces := by
  have hpre : newline ∉ [97, 98, backspace] := by decide
  obtain ⟨hline, hturn⟩ := line_editing linkedState_reachable hpre [] fun _ => 0
  exact ⟨(hline _ _).2, hturn⟩

end AlvOS.Shell
