import Mathlib.Data.List.Forall2
import AlvOS.Shell.Tokens

/-! The commands of shell.c: which of them a line runs, and what is printed for a line that
names none. -/

namespace AlvOS.Shell
open ByteMemory CString Fuel List Set Terminal

inductive CommandFunction
  | help | clear | echo | uptime | halt | history | reboot | meminfo | heapinfo | memtest | kmalloc
deriving DecidableEq

/-- An entry of `shell_commands`: where its name lies, and its function. -/
structure Command where
  name : Nat
  function : CommandFunction

/-- The names and functions of `shell_commands`. -/
def shellCommands : List (List UInt8 × CommandFunction) :=
  [(text "help", .help), (text "clear", .clear), (text "echo", .echo), (text "uptime", .uptime),
    (text "halt", .halt), (text "history", .history), (text "reboot", .reboot),
    (text "meminfo", .meminfo), (text "heapinfo", .heapinfo), (text "memtest", .memtest),
    (text "kmalloc", .kmalloc)]

/-- The command that `shell_execute_command` runs. -/
def findCommand (fuel : Nat) (m : Mem) (arg : Nat) : List Command → Option (Option CommandFunction)
  | [] => some none
  | cmd :: cmds => do
    let d ← strcmp fuel m arg cmd.name
    if d = 0 then some (some cmd.function) else findCommand fuel m arg cmds

/-- `terminal_writestring(data)`, as the call of `terminal_write` it makes. -/
def writestringAt (fuel : Nat) (m : Mem) (data : Nat) : Option Call := do
  let len ← strlen fuel m data
  some (.write ((List.range len).map fun i => m (data + i)))

/-- The loop behind `Comandos similares`: the calls made so far, and `suggestions`. -/
def suggestCommands (fuel : Nat) (m : Mem) (arg : Nat) (calls : List Call) (suggestions : Nat) :
    List Command → Option (List Call × Nat)
  | [] => some (calls, suggestions)
  | cmd :: cmds => do
    let len ← strlen fuel m arg
    if strncmp m arg cmd.name len = 0 then do
      let name ← writestringAt fuel m cmd.name
      let comma := if 0 < suggestions then [.writestring (text ", ")] else []
      suggestCommands fuel m arg (calls ++ comma ++ [name]) (suggestions + 1) cmds
    else suggestCommands fuel m arg calls suggestions cmds

def notFoundHead (name : Call) : List Call :=
  [.setcolor (vgaEntryColor .lightRed .black), .writestring (text "Error: El comando '"), name,
    .writestring (text "' no existe.\n"), .setcolor (vgaEntryColor .lightCyan .black),
    .writestring
      (text "Sugerencia: Escribe 'help' para ver todos los comandos disponibles.\n"),
    .writestring (text "Comandos similares: ")]

def commandNotFound (fuel : Nat) (m : Mem) (arg : Nat) (cmds : List Command) :
    Option (List Call) := do
  let name ← writestringAt fuel m arg
  let (calls, suggestions) ← suggestCommands fuel m arg (notFoundHead name) 0 cmds
  let none := if suggestions = 0 then [.writestring (text "ninguno encontrado")] else []
  some (calls ++ none ++ [.putchar newline])

inductive Outcome
  | run (function : CommandFunction)
  | print (calls : List Call)

def dispatch (fuel : Nat) (m : Mem) (arg : Nat) (cmds : List Command) : Option Outcome := do
  let found ← findCommand fuel m arg cmds
  match found with
  | some function => some (.run function)
  | none => (commandNotFound fuel m arg cmds).map .print

/-- The whole of `shell_execute_command`; a line without arguments has no outcome. -/
def executeLine (fuel : Nat) (m : Mem) (parseBuffer input : Nat) (argv : Nat → Nat)
    (cmds : List Command) : Option (Option Outcome) := do
  let st ← shellExecuteCommand fuel m parseBuffer input argv
  if st.argc = 0 then some none else (dispatch fuel st.mem (st.argv 0) cmds).map some

/-- The names that are printed behind `Comandos similares`. -/
def similar : List (List UInt8) → List Call
  | [] => [.writestring (text "ninguno encontrado")]
  | name :: names => .write name :: names.flatMap fun name => [.writestring (text ", "), .write name]

def outcome (name : List UInt8) (table : List (List UInt8 × CommandFunction)) : Outcome :=
  match table.find? fun e => e.1 = name with
  | some e => .run e.2
  | none => .print (notFoundHead (.write name) ++
      similar ((table.filter fun e => name <+: e.1).map Prod.fst) ++ [.putchar newline])

theorem find_shellCommands :
    ∀ e ∈ shellCommands, shellCommands.find? (fun e' => e'.1 = e.1) = some e := by decide

theorem outcome_shellCommands {e : List UInt8 × CommandFunction} (he : e ∈ shellCommands) :
    outcome e.1 shellCommands = .run e.2 := by
  rw [outcome, find_shellCommands e he]

theorem findCommand_mono (m : Mem) (arg : Nat) (cmds : List Command) :
    Mono fun fuel => findCommand fuel m arg cmds := by
  induction cmds with
  | nil => exact .const _
  | cons cmd cmds ih => exact (strcmp_mono _ _ _).bind fun _ => .ite (.const _) ih

theorem writestringAt_mono (m : Mem) (data : Nat) : Mono fun fuel => writestringAt fuel m data :=
  (strlen_mono _ _).bind fun _ => .const _

theorem suggestCommands_mono (m : Mem) (arg : Nat) (calls : List Call) (suggestions : Nat)
    (cmds : List Command) :
    Mono fun fuel => suggestCommands fuel m arg calls suggestions cmds := by
  induction cmds generalizing calls suggestions with
  | nil => exact .const _
  | cons cmd cmds ih =>
    exact (strlen_mono _ _).bind fun _ =>
      .ite ((writestringAt_mono _ _).bind fun _ => ih _ _) (ih _ _)

theorem commandNotFound_mono (m : Mem) (arg : Nat) (cmds : List Command) :
    Mono fun fuel => commandNotFound fuel m arg cmds :=
  (writestringAt_mono _ _).bind fun _ => (suggestCommands_mono _ _ _ _ _).bind fun _ => .const _

theorem dispatch_mono (m : Mem) (arg : Nat) (cmds : List Command) :
    Mono fun fuel => dispatch fuel m arg cmds := by
  refine (findCommand_mono _ _ _).bind fun found => ?_
  cases found with
  | none => exact (commandNotFound_mono _ _ _).map _
  | some function => exact .const _

structure Entry (m : Mem) (cmd : Command) (e : List UInt8 × CommandFunction) : Prop where
  name : CStr m cmd.name e.1
  function : cmd.function = e.2

section Table
variable {m : Mem} {arg p : Nat} {a cs : List UInt8} {cmds : List Command}
  {table : List (List UInt8 × CommandFunction)}

theorem returns_findCommand (ha : CStr m arg a) (htable : Forall₂ (Entry m) cmds table) :
    Returns (fun fuel => findCommand fuel m arg cmds)
      ((table.find? fun e => e.1 = a).map Prod.snd) := by
  induction htable with
  | nil => exact ⟨0, rfl⟩
  | @cons cmd e cmds table hentry _ ih =>
    have hzero := difference_eq_zero_iff ha.inner hentry.name.inner
    refine (returns_strcmp ha hentry.name).bind (strcmp_mono _ _ _)
      (.ite (.const _) (findCommand_mono _ _ _)) ?_
    by_cases hsame : e.1 = a
    · have hfound : (e :: table).find? (fun e => e.1 = a) = some e := by simp [hsame]
      rw [hfound, Option.map_some, ← hentry.function]
      exact .ite_pos (hzero.mpr hsame.symm) ⟨0, rfl⟩
    · have hskip : (e :: table).find? (fun e => e.1 = a) = table.find? fun e => e.1 = a := by
        simp [hsame]
      rw [hskip]
      exact .ite_neg (fun h => hsame (hzero.mp h).symm) ih

theorem returns_writestringAt (h : CStr m p cs) :
    Returns (fun fuel => writestringAt fuel m p) (.write cs) := by
  refine (returns_strlen h).bind (strlen_mono _ _) (.const _) ⟨0, ?_⟩
  rw [h.spells.map_range]

/-- The names behind the first `k`. -/
def listed : Nat → List (List UInt8) → List Call
  | _, [] => []
  | k, name :: names =>
    (if 0 < k then [.writestring (text ", ")] else []) ++ [.write name] ++ listed (k + 1) names

theorem listed_succ (k : Nat) (names : List (List UInt8)) : listed (k + 1) names =
    names.flatMap fun name => [.writestring (text ", "), .write name] := by
  induction names generalizing k with
  | nil => rfl
  | cons name names ih =>
    rw [listed, if_pos k.succ_pos, ih, flatMap_cons]
    rfl

theorem similar_eq (names : List (List UInt8)) : similar names = listed 0 names ++
    if names.length = 0 then [.writestring (text "ninguno encontrado")] else [] := by
  cases names with
  | nil => rfl
  | cons name names =>
    rw [listed, listed_succ, if_neg (Nat.lt_irrefl 0), if_neg (by simp), append_nil]
    rfl

theorem returns_suggestCommands (ha : CStr m arg a) (htable : Forall₂ (Entry m) cmds table)
    (calls : List Call) (k : Nat) :
    Returns (fun fuel => suggestCommands fuel m arg calls k cmds)
      (calls ++ listed k ((table.filter fun e => a <+: e.1).map Prod.fst),
        k + (table.filter fun e => a <+: e.1).length) := by
  induction htable generalizing calls k with
  | nil => exact ⟨0, by simp [suggestCommands, listed]⟩
  | @cons cmd e cmds table hentry _ ih =>
    have hbegins := strncmp_strlen_eq_zero_iff ha hentry.name
    refine (returns_strlen ha).bind (strlen_mono _ _) (.ite ((writestringAt_mono _ _).bind
      fun _ => suggestCommands_mono _ _ _ _ _) (suggestCommands_mono _ _ _ _ _)) ?_
    by_cases hpre : a <+: e.1
    · have hkeep : (e :: table).filter (fun e => a <+: e.1) =
          e :: table.filter fun e => a <+: e.1 := by simp [hpre]
      rw [hkeep, map_cons, listed, length_cons, ← append_assoc, ← append_assoc,
        ← Nat.add_assoc, Nat.add_right_comm]
      exact .ite_pos (hbegins.mpr hpre) ((returns_writestringAt hentry.name).bind
        (writestringAt_mono _ _) (suggestCommands_mono _ _ _ _ _) (ih _ (k + 1)))
    · have hskip : (e :: table).filter (fun e => a <+: e.1) =
          table.filter fun e => a <+: e.1 := by simp [hpre]
      rw [hskip]
      exact .ite_neg (fun h => hpre (hbegins.mp h)) (ih calls k)

theorem returns_commandNotFound (ha : CStr m arg a) (htable : Forall₂ (Entry m) cmds table) :
    Returns (fun fuel => commandNotFound fuel m arg cmds) (notFoundHead (.write a) ++
      similar ((table.filter fun e => a <+: e.1).map Prod.fst) ++ [.putchar newline]) := by
  refine (returns_writestringAt ha).bind (writestringAt_mono _ _)
    ((suggestCommands_mono _ _ _ _ _).bind fun _ => .const _) ?_
  refine (returns_suggestCommands ha htable _ 0).bind (suggestCommands_mono _ _ _ _ _)
    (.const _) ⟨0, ?_⟩
  rw [similar_eq, length_map, Nat.zero_add, ← append_assoc]

/-- The loops find the command of the name, and the names it is a prefix of. -/
theorem returns_dispatch (ha : CStr m arg a) (htable : Forall₂ (Entry m) cmds table) :
    Returns (fun fuel => dispatch fuel m arg cmds) (outcome a table) := by
  refine (returns_findCommand ha htable).bind (findCommand_mono _ _ _) ?_ ?_
  · cases (table.find? fun e => e.1 = a).map Prod.snd with
    | none => exact (commandNotFound_mono _ _ _).map _
    | some function => exact .const _
  · rw [outcome]
    cases table.find? fun e => e.1 = a with
    | none => exact (returns_commandNotFound ha htable).map _
    | some e => exact ⟨0, rfl⟩

end Table

theorem Tokens.returns_executeLine {m : Mem} {lead parseBuffer input : Nat} {rest : List UInt8}
    {tokens : List (Nat × List UInt8)} {cmds : List Command}
    {table : List (List UInt8 × CommandFunction)} (h : Tokens lead rest tokens)
    (hhead : ∀ c ∈ rest.head?, c ≠ space) (hshort : lead + rest.length < 256) (argv : Nat → Nat)
    (hinput : CStr m input (replicate lead space ++ rest))
    (hapart : input + (lead + rest.length) < parseBuffer ∨ parseBuffer + shellBufferSize ≤ input)
    (htable : Forall₂ (fun cmd e => Entry m cmd e ∧ (cmd.name + e.1.length < parseBuffer ∨
      parseBuffer + shellBufferSize ≤ cmd.name)) cmds table) :
    Returns (fun fuel => executeLine fuel m parseBuffer input argv cmds)
      ((recorded 0 tokens).head?.map fun t => outcome t.2 table) := by
  obtain ⟨st, stores, hret, -, -, hrecovers, -, -⟩ :=
    h.returns_shellExecuteCommand hhead hshort argv hinput hapart
  have hframe : EqOn st.mem m (Ico parseBuffer (parseBuffer + shellBufferSize))ᶜ := hrecovers.frame
  have htable' : Forall₂ (Entry st.mem) cmds table :=
    htable.imp fun cmd e he => ⟨he.1.name.frame hframe he.2, he.1.function⟩
  have hcount := hrecovers.count
  rw [length_map, Nat.zero_add] at hcount
  refine hret.bind (shellExecuteCommand_mono _ _ _ _)
    (.ite (.const _) ((dispatch_mono _ _ _).map _)) ?_
  cases hfirst : recorded 0 tokens with
  | nil =>
    rw [hfirst] at hcount
    exact .ite_pos hcount ⟨0, rfl⟩
  | cons t ts =>
    rw [hfirst] at hcount hrecovers
    have harg := hrecovers.found 0 t.2 rfl
    refine .ite_neg (fun h0 => ?_) ((returns_dispatch harg htable').map some)
    rw [hcount, length_cons] at h0
    exact Nat.succ_ne_zero _ h0

end AlvOS.Shell
