import AlvOS.Lib.Computation
import AlvOS.Shell.Commands
import AlvOS.Shell.Session
import AlvOS.Terminal.Numbers

/-! What the commands of shell.c print that only read: help, echo, uptime and history.  Each is
the sequence of calls it makes to the terminal. -/

namespace AlvOS.Shell
open ByteMemory CString Fuel List Set Terminal

def length (m : Mem) (str : Nat) : Comp Nat := ⟨fun fuel => strlen fuel m str, strlen_mono m str⟩

def compare (m : Mem) (str1 str2 : Nat) : Comp Int :=
  ⟨fun fuel => strcmp fuel m str1 str2, strcmp_mono m str1 str2⟩

def writeAt (m : Mem) (data : Nat) : Comp Call :=
  ⟨fun fuel => writestringAt fuel m data, writestringAt_mono m data⟩

/-- `print_dec(value)`; what it sends depends on neither the screen nor its buffer. -/
def writeDec (value : UInt64) : Comp Call where
  run fuel := (Machine.run Decimal.turn fuel
    (printDec ⟨⟨0, 0, 0, ⟨fun _ => 0, []⟩⟩, []⟩ (fun _ => 0) value)).map fun d =>
      .write d.output.sent
  mono := (Machine.run_mono _ _).map _

def utf8 (s : String) : List UInt8 := s.toUTF8.data.toList

def color (fg : VgaColor) : Call := .setcolor (vgaEntryColor fg .black)

/-! ## echo -/

def shellCmdEcho (m : Mem) (argc : Nat) (argv : Nat → Nat) : Comp (List Call) :=
  if argc < 2 then pure [.writestring (text "\n")]
  else do
    let calls ← Comp.forEach (fun i calls => do
      let arg ← writeAt m (argv (i + 1))
      pure (calls ++ arg :: if i + 1 < argc - 1 then [.putchar space] else [])) (argc - 1) []
    pure (calls ++ [.putchar newline])

/-! ## history -/

def shellShowHistory (history : Nat) (h : History) : Comp (List Call) :=
  if h.count = 0 then pure [.writestring (text "No hay comandos en el historial.\n")]
  else
    Comp.forEach (fun i calls => do
      let number ← writeDec (.ofNat (i + 1))
      let row ← writeAt h.mem (historyRow history i)
      pure (calls ++ [color .lightGreen, .writestring (text "  "), number, .writestring (text ". "),
        color .lightGrey, row, .putchar newline])) h.count
      [color .lightCyan, .writestring (utf8 "Historial de comandos (más reciente al final):\n"),
        .writestring (text "==============================================\n")]

/-! ## uptime -/

def twoDigits (value : UInt64) : Comp (List Call) := do
  let number ← writeDec value
  pure ((if value < 10 then [.putchar 48] else []) ++ [number])

def shellCmdUptime (ticks : UInt64) : Comp (List Call) := do
  let seconds := ticks / 100
  let number ← writeDec seconds
  let hours ← twoDigits (seconds / 3600)
  let minutes ← twoDigits (seconds % 3600 / 60)
  let secs ← twoDigits (seconds % 60)
  pure ([color .lightCyan, .writestring (text "TIEMPO DE ACTIVIDAD DEL SISTEMA\n"),
    .writestring (text "==================================\n"),
    color .lightGreen, .writestring (text "Segundos: "), color .lightGrey, number,
    .writestring (text " segundos\n"),
    color .lightGreen, .writestring (text "Formateado: "), color .lightGrey] ++
    hours ++ [.putchar 58] ++ minutes ++ [.putchar 58] ++ secs ++ [.putchar newline])

/-! ## help -/

/-- The third field of an entry, and where the names lie that the examples are for. -/
structure Described extends Command where
  description : Nat

structure Examples where
  echo : Nat
  uptime : Nat

/-- The descriptions of `shell_commands`. -/
def shellDescriptions : List (List UInt8) :=
  [utf8 "Muestra información sobre todos los comandos disponibles",
    utf8 "Limpia completamente la pantalla del terminal",
    utf8 "Repite el texto ingresado como argumento",
    utf8 "Muestra el tiempo que el sistema ha estado activo",
    utf8 "Detiene el sistema de forma segura (apagar)",
    utf8 "Muestra el historial de comandos recientes", utf8 "Reinicia el sistema",
    utf8 "Muestra información detallada de la memoria",
    utf8 "Muestra información del heap del kernel",
    utf8 "Ejecutar suite completa de tests de memoria", utf8 "Alloc memory"]

def helpList (m : Mem) : List Described → Comp (List Call)
  | [] => pure []
  | cmd :: cmds => do
    let name ← writeAt m cmd.name
    let len ← length m cmd.name
    let description ← writeAt m cmd.description
    let rest ← helpList m cmds
    pure ([color .lightGreen, .writestring (text "  "), name] ++
      replicate (max (12 - len) 1) (.putchar space) ++
      [color .lightGrey, .writestring (text "- "), description, .putchar newline] ++ rest)

def helpExample (m : Mem) (literals : Examples) (cmd : Described) : Comp (List Call) := do
  let echo ← compare m cmd.name literals.echo
  if echo = 0 then
    pure [.writestring (text " <texto>\n"), .writestring (text "   Ejemplo: echo Hola Mundo\n")]
  else do
    let uptime ← compare m cmd.name literals.uptime
    if uptime = 0 then
      pure [.writestring (text "\n"), .writestring
        (text "   Muestra el tiempo del sistema en segundos y formato HH:MM:SS\n")]
    else pure []

def helpFor (m : Mem) (literals : Examples) (arg : Nat) : List Described → Comp (List Call)
  | [] => do
    let name ← writeAt m arg
    pure [color .lightRed, .writestring (utf8 "No se encontró ayuda para el comando '"), name,
      .writestring (text "'\n")]
  | cmd :: cmds => do
    let d ← compare m arg cmd.name
    if d = 0 then do
      let name ← writeAt m cmd.name
      let description ← writeAt m cmd.description
      let usage ← helpExample m literals cmd
      pure ([color .lightCyan, .writestring (text "AYUDA DETALLADA: "), name,
        .writestring (text "\n"), .writestring (text "===================================\n"),
        color .lightGreen, .writestring (utf8 "Descripción: "), color .lightGrey, description,
        .writestring (text "\n"), color .lightGreen, .writestring (text "Uso: "), color .lightGrey,
        name] ++ usage)
    else helpFor m literals arg cmds

def shellCmdHelp (m : Mem) (literals : Examples) (cmds : List Described) (argc : Nat)
    (argv : Nat → Nat) : Comp (List Call) :=
  if argc = 1 then do
    let list ← helpList m cmds
    pure ([color .lightCyan, .writestring (text "COMANDOS DISPONIBLES\n"),
      .writestring (text "=======================\n"), .writestring
        (utf8 "Escribe 'help <comando>' para información detallada.\n\n")] ++ list)
  else if argc = 2 then helpFor m literals (argv 1) cmds
  else pure [color .lightRed, .writestring (text "Uso incorrecto. Formato: help [comando]\n")]

structure Linkage extends Places where
  commands : List Described
  literals : Examples

def builtin (lk : Linkage) (h : History) (ticks : UInt64) (argc : Nat) (argv : Nat → Nat) :
    CommandFunction → Comp (Option (List Call))
  | .help => some <$> shellCmdHelp h.mem lk.literals lk.commands argc argv
  | .echo => some <$> shellCmdEcho h.mem argc argv
  | .uptime => some <$> shellCmdUptime ticks
  | .history => some <$> shellShowHistory lk.history h
  | _ => pure none

/-- `shell_execute_command` once the line has been parsed. -/
def callCommand (lk : Linkage) (h : History) (ticks : UInt64) (st : Parsed) :
    Comp (Option (List Call)) :=
  if st.argc = 0 then pure (some [])
  else do
    let found ← ⟨fun fuel => dispatch fuel st.mem (st.argv 0) (lk.commands.map (·.toCommand)),
      dispatch_mono _ _ _⟩
    match found with
    | .print calls => pure (some calls)
    | .run function => builtin lk { h with mem := st.mem } ticks st.argc st.argv function

/-- One turn of `shell_run` from the newline on: the calls for the line that has been typed. -/
def lineCalls (lk : Linkage) (ticks : UInt64) (argv : Nat → Nat) (s : State)
    (chars : List UInt8) : Comp (Option (List Call)) := do
  let s := afterReading lk.toPlaces s chars
  let h ← ⟨fun fuel => enterLine fuel lk.toPlaces s.history, enterLine_mono _ _⟩
  let st ← ⟨fun fuel => shellExecuteCommand fuel h.mem lk.parseBuffer lk.shellBuffer argv,
    shellExecuteCommand_mono _ _ _ _⟩
  callCommand lk h ticks st

end AlvOS.Shell
