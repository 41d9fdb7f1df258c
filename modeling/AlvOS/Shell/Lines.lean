import AlvOS.Shell.Builtins
import AlvOS.Shell.History

/-! What the commands print that only read, as a function of their arguments, the history, the
time and the table of commands. -/

namespace AlvOS.Shell
open ByteMemory CString Fuel List Set Terminal

section Values
variable {m : Mem} {p q : Nat} {a b cs : List UInt8}

theorem yields_length (h : CStr m p cs) : (length m p).Yields (· = cs.length) :=
  ⟨_, returns_strlen h, rfl⟩

theorem yields_writeAt (h : CStr m p cs) : (writeAt m p).Yields (· = .write cs) :=
  ⟨_, returns_writestringAt h, rfl⟩

theorem yields_compare (ha : CStr m p a) (hb : CStr m q b) :
    (compare m p q).Yields fun d => d = 0 ↔ a = b :=
  ⟨_, returns_strcmp ha hb, difference_eq_zero_iff ha.inner hb.inner⟩

theorem yields_writeDec (value : UInt64) :
    (writeDec value).Yields (· = .write (decimal value.toNat)) := by
  obtain ⟨d, hd⟩ :=
    Decimal.halts (printDec ⟨⟨0, 0, 0, ⟨fun _ => 0, []⟩⟩, []⟩ (fun _ => 0) value)
  have hend := hd.1.invariant Decimal.Sending.turn (sending_printDec _ _ value)
  exact ⟨_, hd.returns_run.map _, by rw [hend.halted hd.2]⟩

end Values

def characters : Call → List UInt8
  | .putchar c => [c]
  | .write data => data
  | .writestring data => data.takeWhile (· ≠ 0)
  | .setcolor _ => []

theorem terminalWrite_append (s : Screen) (a b : List UInt8) :
    terminalWrite s (a ++ b) = terminalWrite (terminalWrite s a) b := List.foldl_append

/-! ## echo -/

def echoed (args : List (List UInt8)) : List Call :=
  if args = [] then [.writestring (text "\n")]
  else (args.map .write).intersperse (.putchar space) ++ [.putchar newline]

theorem intersperse_concat {α : Type} (sep x : α) (xs : List α) :
    (xs ++ [x]).intersperse sep = xs.flatMap (fun a => [a, sep]) ++ [x] := by
  induction xs with
  | nil => rfl
  | cons a xs ih =>
    rw [flatMap_cons, append_assoc, ← ih]
    cases xs with
    | nil => rfl
    | cons b xs => rfl

/-- The arguments that have been printed after `n` turns of the loop. -/
def printed (args : List (List UInt8)) (n : Nat) : List Call :=
  if n < args.length then ((args.take n).map .write).flatMap fun a => [a, .putchar space]
  else (args.map .write).intersperse (.putchar space)

theorem printed_succ {args : List (List UInt8)} {n : Nat} {a : List UInt8}
    (ha : args[n]? = some a) : printed args (n + 1) =
      printed args n ++ .write a :: if n + 1 < args.length then [.putchar space] else [] := by
  have hlt := (List.getElem?_eq_some_iff.mp ha).1
  have htake : args.take (n + 1) = args.take n ++ [a] := by
    rw [List.take_add_one, ha]
    rfl
  unfold printed
  rw [if_pos hlt]
  split_ifs with hmore
  · rw [htake, List.map_append, List.flatMap_append]
    rfl
  · have hall : args.map Call.write = (args.take n).map .write ++ [.write a] := by
      rw [← List.map_singleton, ← List.map_append, ← htake, List.take_of_length_le (by omega)]
    rw [hall]
    exact intersperse_concat _ _ _

theorem yields_shellCmdEcho {m : Mem} {args : List (List UInt8)} {argv : Nat → Nat}
    (hargv : ∀ i a, args[i]? = some a → CStr m (argv (i + 1)) a) :
    (shellCmdEcho m (args.length + 1) argv).Yields (· = echoed args) := by
  unfold shellCmdEcho echoed
  by_cases hnil : args = []
  · subst hnil
    exact Comp.yields_pure.mpr rfl
  · have hpos := List.length_pos_iff.mpr hnil
    rw [if_neg (by omega), if_neg hnil, Nat.add_sub_cancel]
    refine Comp.Yields.bind (P := (· = printed args args.length)) ?_ fun calls hcalls => ?_
    · refine Comp.Yields.forEach (I := fun n calls => calls = printed args n)
        (if_pos hpos).symm fun i calls hi hcalls => ?_
      have ha : args[i]? = some args[i] := List.getElem?_eq_getElem hi
      refine (yields_writeAt (hargv i _ ha)).bind fun call hcall => ?_
      rw [hcalls, hcall, printed_succ ha]
      exact Comp.yields_pure.mpr rfl
    · rw [hcalls, printed, if_neg (Nat.lt_irrefl _)]
      exact Comp.yields_pure.mpr rfl

theorem echoed_onScreen (args : List (List UInt8)) (s : Screen) :
    (echoed args).foldl Call.onScreen s =
      terminalWrite s (intercalate [space] args ++ [newline]) := by
  have hargs (arg : List UInt8) (args : List (List UInt8)) :
      (((arg :: args).map Call.write).intersperse (.putchar space)).foldl Call.onScreen s =
        terminalWrite s (intercalate [space] (arg :: args)) := by
    induction args generalizing arg s with
    | nil => rw [intercalate_singleton]; rfl
    | cons arg' args ih =>
      rw [intercalate_cons_cons, append_assoc, terminalWrite_append, terminalWrite_append, ← ih]
      rfl
  unfold echoed
  split_ifs with hnil
  · rw [hnil]
    rfl
  · obtain ⟨arg, args, rfl⟩ := exists_cons_of_ne_nil hnil
    rw [foldl_append, hargs, terminalWrite_append]
    rfl

/-! ## history -/

def numbered (line : List UInt8) (i : Nat) : List Call :=
  [color .lightGreen, .writestring (text "  "), .write (decimal (i + 1)), .writestring (text ". "),
    color .lightGrey, .write line, .putchar newline]

def listing (lines : List (List UInt8)) : List Call :=
  [color .lightCyan, .writestring (utf8 "Historial de comandos (más reciente al final):\n"),
    .writestring (text "==============================================\n")] ++
  lines.zipIdx.flatMap fun (line, i) => numbered line i

theorem listing_take_succ {lines : List (List UInt8)} {n : Nat} {line : List UInt8}
    (hline : lines[n]? = some line) :
    listing (lines.take (n + 1)) = listing (lines.take n) ++ numbered line n := by
  have hlt := (List.getElem?_eq_some_iff.mp hline).1
  have htake : lines.take (n + 1) = lines.take n ++ [line] := by
    rw [List.take_add_one, hline]
    rfl
  rw [listing, listing, htake, List.zipIdx_append, List.flatMap_append, List.length_take_of_le hlt.le,
    Nat.zero_add]
  rfl

theorem Keeps.yields_shellShowHistory {history : Nat} {h : History} {lines : List (List UInt8)}
    (hk : Keeps history h lines) (hne : lines ≠ []) :
    (shellShowHistory history h).Yields (· = listing lines) := by
  obtain ⟨rows, htable, hlines⟩ := hk.table
  have hcount := hk.count
  have hle := hk.length_le
  have hpos := List.length_pos_iff.mpr hne
  rw [shellShowHistory, if_neg (by omega), hcount]
  refine Comp.Yields.imp (P := (· = listing (lines.take lines.length))) ?_ fun calls hcalls => ?_
  · refine Comp.Yields.forEach (I := fun n calls => calls = listing (lines.take n)) rfl
      fun i calls hi hcalls => ?_
    have hline : lines[i]? = some lines[i] := List.getElem?_eq_getElem hi
    have hrow := (htable i (by omega)).1
    rw [hlines i _ hline] at hrow
    have hnumber : (UInt64.ofNat (i + 1)).toNat = i + 1 := by
      rw [UInt64.toNat_ofNat', Nat.mod_eq_of_lt (by omega)]
    refine (yields_writeDec _).bind fun number hn => (yields_writeAt hrow).bind fun row hr => ?_
    rw [hcalls, hn, hr, hnumber, listing_take_succ hline]
    exact Comp.yields_pure.mpr rfl
  · rw [hcalls, List.take_length]

/-! ## uptime -/

def padded (n : Nat) : List Call := (if n < 10 then [.putchar 48] else []) ++ [.write (decimal n)]

def clock (seconds : Nat) : List Call :=
  padded (seconds / 3600) ++ [.putchar 58] ++ padded (seconds % 3600 / 60) ++ [.putchar 58] ++
    padded (seconds % 60)

def uptimeHead (seconds : Nat) : List Call :=
  [color .lightCyan, .writestring (text "TIEMPO DE ACTIVIDAD DEL SISTEMA\n"),
    .writestring (text "==================================\n"),
    color .lightGreen, .writestring (text "Segundos: "), color .lightGrey,
    .write (decimal seconds), .writestring (text " segundos\n"),
    color .lightGreen, .writestring (text "Formateado: "), color .lightGrey]

def uptime (ticks : UInt64) : List Call :=
  uptimeHead (ticks.toNat / 100) ++ clock (ticks.toNat / 100) ++ [.putchar newline]

theorem yields_twoDigits (value : UInt64) :
    (twoDigits value).Yields (· = padded value.toNat) := by
  have hten : value < 10 ↔ value.toNat < 10 := UInt64.lt_iff_toNat_lt
  refine (yields_writeDec value).bind fun number hn => Comp.yields_pure.mpr ?_
  rw [hn, padded]
  exact congrArg (· ++ _) (if_congr hten rfl rfl)

theorem yields_shellCmdUptime (ticks : UInt64) :
    (shellCmdUptime ticks).Yields (· = uptime ticks) := by
  refine (yields_writeDec _).bind fun number hn => (yields_twoDigits _).bind fun h hh =>
    (yields_twoDigits _).bind fun m hm => (yields_twoDigits _).bind fun s hs =>
      Comp.yields_pure.mpr ?_
  rw [hn, hh, hm, hs, uptime, uptimeHead, clock]
  simp only [UInt64.toNat_div, UInt64.toNat_mod, List.append_assoc]
  rfl

theorem padded_reads_back (n : Nat) :
    Numeral.read asciiDigit 10 ((padded n).flatMap characters) = some n ∧
      2 ≤ ((padded n).flatMap characters).length ∧
      (n < 100 → ((padded n).flatMap characters).length = 2) := by
  have hread := (canonical_decimal n).read
  have hdigits (k : Nat) (h0 : n ≠ 0) : (decimal n).length ≤ k ↔ n < 10 ^ k := by
    rw [decimal, if_neg h0, Numeral.length_write, Nat.digits_length_le_iff (by decide)]
  have hpos := List.length_pos_iff.mpr (canonical_decimal n).nonempty
  unfold padded
  split_ifs with hn
  · have hsent : ([Call.putchar 48] ++ [Call.write (decimal n)]).flatMap characters =
        48 :: decimal n := by
      simp [characters]
    have hone : (decimal n).length = 1 := by
      by_cases h0 : n = 0
      · rw [h0]
        rfl
      · have := (hdigits 1 h0).mpr hn
        omega
    rw [hsent, List.length_cons, hone]
    exact ⟨hread, le_refl 2, fun _ => rfl⟩
  · have hsent : ([] ++ [Call.write (decimal n)]).flatMap characters = decimal n := by
      simp [characters]
    have h0 : n ≠ 0 := by omega
    have hone := (hdigits 1 h0).not.mpr hn
    rw [hsent]
    refine ⟨hread, by omega, fun hlt => ?_⟩
    have := (hdigits 2 h0).mpr hlt
    omega

/-! ## help -/

abbrev Row := List UInt8 × List UInt8 × CommandFunction

def helpLine (e : Row) : List Call :=
  [color .lightGreen, .writestring (text "  "), .write e.1] ++
    List.replicate (max (12 - e.1.length) 1) (.putchar space) ++
    [color .lightGrey, .writestring (text "- "), .write e.2.1, .putchar newline]

def overview (table : List Row) : List Call :=
  [color .lightCyan, .writestring (text "COMANDOS DISPONIBLES\n"),
    .writestring (text "=======================\n"), .writestring
      (utf8 "Escribe 'help <comando>' para información detallada.\n\n")] ++ table.flatMap helpLine

def usage (name : List UInt8) : List Call :=
  if name = text "echo" then
    [.writestring (text " <texto>\n"), .writestring (text "   Ejemplo: echo Hola Mundo\n")]
  else if name = text "uptime" then
    [.writestring (text "\n"), .writestring
      (text "   Muestra el tiempo del sistema en segundos y formato HH:MM:SS\n")]
  else []

def details (e : Row) : List Call :=
  [color .lightCyan, .writestring (text "AYUDA DETALLADA: "), .write e.1,
    .writestring (text "\n"), .writestring (text "===================================\n"),
    color .lightGreen, .writestring (utf8 "Descripción: "), color .lightGrey, .write e.2.1,
    .writestring (text "\n"), color .lightGreen, .writestring (text "Uso: "), color .lightGrey,
    .write e.1] ++ usage e.1

def noHelp (name : List UInt8) : List Call :=
  [color .lightRed, .writestring (utf8 "No se encontró ayuda para el comando '"), .write name,
    .writestring (text "'\n")]

/-- What `help` prints with the arguments behind it. -/
def helped (table : List Row) : List (List UInt8) → List Call
  | [] => overview table
  | [name] => ((table.find? fun e => e.1 = name).map details).getD (noHelp name)
  | _ => [color .lightRed, .writestring (text "Uso incorrecto. Formato: help [comando]\n")]

/-- The strings of an entry are where `S` says a string is. -/
structure Describes (S : Nat → List UInt8 → Prop) (cmd : Described) (e : Row) : Prop where
  name : S cmd.name e.1
  description : S cmd.description e.2.1
  function : cmd.function = e.2.2

structure Examples.Hold (S : Nat → List UInt8 → Prop) (literals : Examples) : Prop where
  echo : S literals.echo (text "echo")
  uptime : S literals.uptime (text "uptime")

section Help
variable {m : Mem} {literals : Examples} {cmds : List Described} {table : List Row} {arg : Nat}
  {a : List UInt8}

theorem yields_helpList (h : List.Forall₂ (Describes (CStr m)) cmds table) :
    (helpList m cmds).Yields (· = table.flatMap helpLine) := by
  induction h with
  | nil => exact Comp.yields_pure.mpr rfl
  | cons he _ ih =>
    refine (yields_writeAt he.name).bind fun name hname => (yields_length he.name).bind
      fun len hlen => (yields_writeAt he.description).bind fun description hdescription =>
        ih.bind fun rest hrest => Comp.yields_pure.mpr ?_
    rw [hname, hlen, hdescription, hrest, List.flatMap_cons, helpLine]

theorem yields_helpExample (hliterals : literals.Hold (CStr m)) {cmd : Described} {e : Row}
    (he : Describes (CStr m) cmd e) : (helpExample m literals cmd).Yields (· = usage e.1) := by
  rw [helpExample, usage]
  refine (yields_compare he.name hliterals.echo).bind fun d hd => ?_
  by_cases hecho : e.1 = text "echo"
  · rw [if_pos (hd.mpr hecho), if_pos hecho]
    exact Comp.yields_pure.mpr rfl
  · rw [if_neg (mt hd.mp hecho), if_neg hecho]
    refine (yields_compare he.name hliterals.uptime).bind fun d hd => ?_
    by_cases huptime : e.1 = text "uptime"
    · rw [if_pos (hd.mpr huptime), if_pos huptime]
      exact Comp.yields_pure.mpr rfl
    · rw [if_neg (mt hd.mp huptime), if_neg huptime]
      exact Comp.yields_pure.mpr rfl

theorem yields_helpFor (hliterals : literals.Hold (CStr m))
    (h : List.Forall₂ (Describes (CStr m)) cmds table)
    (ha : CStr m arg a) : (helpFor m literals arg cmds).Yields
      (· = ((table.find? fun e => e.1 = a).map details).getD (noHelp a)) := by
  induction h with
  | nil =>
    refine (yields_writeAt ha).bind fun name hname => Comp.yields_pure.mpr ?_
    rw [hname]
    rfl
  | @cons cmd e cmds table he _ ih =>
    rw [helpFor]
    refine (yields_compare ha he.name).bind fun d hd => ?_
    by_cases hsame : a = e.1
    · have hfound : (e :: table).find? (fun e => e.1 = a) = some e := by simp [hsame]
      rw [if_pos (hd.mpr hsame), hfound]
      refine (yields_writeAt he.name).bind fun name hname => (yields_writeAt he.description).bind
        fun description hdescription => (yields_helpExample hliterals he).bind
          fun example' hexample => Comp.yields_pure.mpr ?_
      rw [hname, hdescription, hexample]
      rfl
    · have hskip : (e :: table).find? (fun e => e.1 = a) = table.find? fun e => e.1 = a := by
        simp [Ne.symm hsame]
      rw [if_neg (mt hd.mp hsame), hskip]
      exact ih

theorem yields_shellCmdHelp (hliterals : literals.Hold (CStr m))
    (h : List.Forall₂ (Describes (CStr m)) cmds table) {args : List (List UInt8)} {argv : Nat → Nat}
    (hargv : ∀ i a, args[i]? = some a → CStr m (argv (i + 1)) a) :
    (shellCmdHelp m literals cmds (args.length + 1) argv).Yields (· = helped table args) := by
  rw [shellCmdHelp]
  match args with
  | [] =>
    refine (yields_helpList h).bind fun list hlist => Comp.yields_pure.mpr ?_
    rw [hlist]
    rfl
  | [name] => exact yields_helpFor hliterals h (hargv 0 name rfl)
  | _ :: _ :: rest =>
    rw [if_neg (by simp), if_neg (by simp)]
    exact Comp.yields_pure.mpr rfl

end Help

end AlvOS.Shell
