import AlvOS.Shell.Defs

/-! The command parser of shell.c on any text.  Arguments are cut out of the parse buffer in
place, by null bytes over their delimiters, while the scan goes on behind them.  A text falls
into tokens, of which the parser records those that are not empty, as many as there is room
for. -/

namespace AlvOS.Shell
open ByteMemory CString Fuel Set Terminal

theorem skipSpaces_mono (m : Mem) (p : Nat) : Mono fun fuel => skipSpaces fuel m p :=
  scanWhile_mono _ m p

theorem findEnd_mono (delimiter : UInt8) (m : Mem) (p : Nat) :
    Mono fun fuel => findEnd delimiter fuel m p := scanWhile_mono _ m p

theorem parseArgument_mono (m : Mem) (p : Nat) : Mono fun fuel => parseArgument fuel m p :=
  .ite ((findEnd_mono _ _ _).bind fun _ => .const _) ((findEnd_mono _ _ _).bind fun _ => .const _)

theorem parseArgumentStores_mono (m : Mem) (p argc : Nat) :
    Mono fun fuel => parseArgumentStores fuel m p argc :=
  .ite ((findEnd_mono _ _ _).bind fun _ => .const _) ((findEnd_mono _ _ _).bind fun _ => .const _)

theorem parseTurn_mono (st : Parsed) (p : Nat) : Mono fun fuel => parseTurn fuel st p :=
  (parseArgument_mono _ _).bind fun _ => (strlen_mono _ _).bind fun _ =>
    (skipSpaces_mono _ _).bind fun _ => .const _

theorem parseLoop_mono (st : Parsed) (p : Nat) : Mono fun fuel => parseLoop fuel st p := by
  refine .of_succ fun fuel r h => ?_
  induction fuel generalizing st p with
  | zero => simp [parseLoop] at h
  | succ fuel ih =>
    rw [parseLoop] at h ⊢
    split_ifs at h ⊢ with hgo
    · obtain ⟨⟨st', p'⟩, hturn, hrest⟩ := Option.bind_eq_some_iff.mp h
      exact Option.bind_eq_some_iff.mpr
        ⟨⟨st', p'⟩, parseTurn_mono st p _ _ _ fuel.le_succ hturn, ih _ _ hrest⟩
    · exact h

theorem parseLoopStores_mono (st : Parsed) (p : Nat) :
    Mono fun fuel => parseLoopStores fuel st p := by
  refine .of_succ fun fuel r h => ?_
  induction fuel generalizing st p r with
  | zero => simp [parseLoopStores] at h
  | succ fuel ih =>
    rw [parseLoopStores] at h ⊢
    split_ifs at h ⊢ with hgo
    · obtain ⟨stores, hstores, h⟩ := Option.bind_eq_some_iff.mp h
      obtain ⟨⟨st', p'⟩, hturn, h⟩ := Option.bind_eq_some_iff.mp h
      obtain ⟨rest, hrest, h⟩ := Option.bind_eq_some_iff.mp h
      refine Option.bind_eq_some_iff.mpr
        ⟨stores, parseArgumentStores_mono _ _ _ _ _ _ fuel.le_succ hstores, ?_⟩
      refine Option.bind_eq_some_iff.mpr
        ⟨⟨st', p'⟩, parseTurn_mono st p _ _ _ fuel.le_succ hturn, ?_⟩
      exact Option.bind_eq_some_iff.mpr ⟨rest, ih _ _ _ hrest, h⟩
    · exact h

theorem shellParseCommand_mono (m : Mem) (parseBuffer input : Nat) (argv : Nat → Nat) :
    Mono fun fuel => shellParseCommand fuel m parseBuffer input argv :=
  (copyString_mono _ _ _).bind fun _ => (skipSpaces_mono _ _).bind fun _ => parseLoop_mono _ _

theorem shellParseCommandStores_mono (m : Mem) (parseBuffer input : Nat) (argv : Nat → Nat) :
    Mono fun fuel => shellParseCommandStores fuel m parseBuffer input argv :=
  (copyStores_mono _ _ _).bind fun _ => (copyString_mono _ _ _).bind fun _ =>
    (skipSpaces_mono _ _).bind fun _ => (parseLoopStores_mono _ _).bind fun _ => .const _

theorem shellExecuteCommand_mono (m : Mem) (parseBuffer input : Nat) (argv : Nat → Nat) :
    Mono fun fuel => shellExecuteCommand fuel m parseBuffer input argv :=
  (skipSpaces_mono _ _).bind fun _ => .ite (.const _) (shellParseCommand_mono _ _ _ _)

theorem shellExecuteCommandStores_mono (m : Mem) (parseBuffer input : Nat) (argv : Nat → Nat) :
    Mono fun fuel => shellExecuteCommandStores fuel m parseBuffer input argv :=
  (skipSpaces_mono _ _).bind fun _ => .ite (.const _) (shellParseCommandStores_mono _ _ _ _)

section Argument
variable {m m' : Mem} {p start stop next gap : Nat} {arg rest : List UInt8} {delimiter : UInt8}

theorem returns_findEnd (h : Spells m p arg) (hnull : 0 ∉ arg) (hdelim : delimiter ∉ arg)
    (hstop : m (p + arg.length) = 0 ∨ m (p + arg.length) = delimiter) :
    Returns (fun fuel => findEnd delimiter fuel m p) (p + arg.length) := by
  refine returns_scanWhile _ h (fun c hc => ?_) ?_
  · have h0 : c ≠ 0 := fun h0 => hnull (h0 ▸ hc)
    have hd : c ≠ delimiter := fun hd => hdelim (hd ▸ hc)
    simp [h0, hd]
  · rcases hstop with h0 | hd
    · simp [h0]
    · simp [hd]

theorem cut_at (hspells : Spells m start arg) (hnull : 0 ∉ arg)
    (hrest : CStr m (start + arg.length) (delimiter :: rest)) :
    ∃ m', cut delimiter m (start + arg.length) = (m', start + arg.length + 1) ∧
      CStr m' start arg ∧ CStr m' (start + arg.length + 1) rest ∧
      ∀ x, x ≠ start + arg.length → m' x = m x := by
  refine ⟨Function.update m (start + arg.length) 0, if_pos hrest.spells.1,
    ⟨hspells.congr fun x hx => Function.update_of_ne ?_ _ _, Function.update_self _ _ _, hnull⟩,
    hrest.next.congr fun x hx => Function.update_of_ne ?_ _ _,
    fun x hx => Function.update_of_ne hx _ _⟩
  · have := hx.2
    omega
  · have := hx.1
    omega

/-- What one argument comes to, in a text that ends at `stop`: it stands at `start`, ended
by a null byte before the place the scan goes on from, where spaces and the rest follow. -/
structure Cut (m : Mem) (p stop : Nat) (arg rest : List UInt8) (m' : Mem) (start next gap : Nat) :
    Prop where
  isArg : CStr m' start arg
  isRest : CStr m' next (List.replicate gap space ++ rest)
  before : start + arg.length < next ∨ start + arg.length = next ∧ gap = 0 ∧ rest = []
  after : p ≤ next
  ends : next + (gap + rest.length) = stop
  frame : ∀ x ∉ Ico p stop, m' x = m x

def Begins (m : Mem) (p : Nat) (delimiter : UInt8) (start : Nat) : Prop :=
  m p = quote ∧ delimiter = quote ∧ start = p + 1 ∨ m p ≠ quote ∧ delimiter = space ∧ start = p

theorem Begins.returns (h : Begins m p delimiter start)
    (hfind : Returns (fun fuel => findEnd delimiter fuel m start) stop)
    (hcut : cut delimiter m stop = (m', next)) (argc : Nat) :
    Returns (fun fuel => parseArgument fuel m p) (m', start, next) ∧
      Returns (fun fuel => parseArgumentStores fuel m p argc)
        (.argv argc :: cutStores delimiter m stop) := by
  unfold parseArgument parseArgumentStores
  rcases h with ⟨hquote, rfl, rfl⟩ | ⟨hquote, rfl, rfl⟩
  · simp only [if_pos hquote]
    refine ⟨hfind.bind (findEnd_mono _ _ _) (.const _) ⟨0, ?_⟩,
      hfind.bind (findEnd_mono _ _ _) (.const _) ⟨0, rfl⟩⟩
    dsimp only
    rw [hcut]
  · simp only [if_neg hquote]
    refine ⟨hfind.bind (findEnd_mono _ _ _) (.const _) ⟨0, ?_⟩,
      hfind.bind (findEnd_mono _ _ _) (.const _) ⟨0, rfl⟩⟩
    dsimp only
    rw [hcut]

/-- The argument at `p` is parsed, and stored where the text is. -/
def Parses (m : Mem) (p : Nat) (text arg rest : List UInt8) (start : Nat) : Prop :=
  ∃ m' next left, Returns (fun fuel => parseArgument fuel m p) (m', start, next) ∧
    Cut m p (p + text.length) arg rest m' start next left ∧
    ∀ argc, ∃ stores, Returns (fun fuel => parseArgumentStores fuel m p argc)
        (.argv argc :: stores) ∧
      ∀ w ∈ stores, ∃ x ∈ Ico p (p + text.length), w = .byte x

theorem Begins.closed (h : Begins m p delimiter start)
    (htext : CStr m start (arg ++ delimiter :: (List.replicate gap space ++ rest)))
    (hdelim : delimiter ∉ arg) {text : List UInt8}
    (hstop : p + text.length = start + (arg.length + 1 + (gap + rest.length))) :
    Parses m p text arg rest start := by
  have hspells : Spells m start arg := (spells_append.mp htext.spells).1
  have hnull : 0 ∉ arg := fun h0 => htext.inner (by simp [h0])
  have hclose : m (start + arg.length) = delimiter := htext.tail.spells.1
  have hstart : p ≤ start := by
    rcases h with ⟨-, -, rfl⟩ | ⟨-, -, rfl⟩
    · omega
    · exact le_refl _
  obtain ⟨m', hcut, hisArg, hisRest, hframe⟩ := cut_at hspells hnull htext.tail
  have hreturns := h.returns (returns_findEnd hspells hnull hdelim (.inr hclose)) hcut
  refine ⟨m', start + arg.length + 1, gap, (hreturns 0).1, ⟨hisArg, hisRest, .inl (by omega),
    by omega, by omega, fun x hx => hframe x fun heq => hx ⟨by omega, by omega⟩⟩,
    fun argc => ⟨_, (hreturns argc).2, fun w hw => ?_⟩⟩
  rw [cutStores, if_pos hclose, List.mem_singleton] at hw
  exact ⟨start + arg.length, ⟨by omega, by omega⟩, hw⟩

theorem Begins.last (h : Begins m p delimiter start) (htext : CStr m start arg)
    (hdelim : delimiter ∉ arg) {text : List UInt8}
    (hstop : p + text.length = start + arg.length) : Parses m p text arg [] start := by
  have hne : m (start + arg.length) ≠ delimiter := by
    rw [htext.stop]
    rcases h with ⟨-, rfl, -⟩ | ⟨-, rfl, -⟩
    · decide
    · decide
  have hstart : p ≤ start := by
    rcases h with ⟨-, -, rfl⟩ | ⟨-, -, rfl⟩
    · omega
    · exact le_refl _
  have hempty : CStr m (start + arg.length) [] := ⟨trivial, htext.stop, by simp⟩
  have hreturns := h.returns (returns_findEnd htext.spells htext.inner hdelim (.inl htext.stop))
    (if_neg hne)
  refine ⟨m, start + arg.length, 0, (hreturns 0).1, ⟨htext, hempty, .inr ⟨rfl, rfl, rfl⟩,
    by omega, hstop.symm, fun x _ => rfl⟩, fun argc => ⟨_, (hreturns argc).2, fun w hw => ?_⟩⟩
  rw [cutStores, if_neg hne] at hw
  cases hw

end Argument

/-- How a text begins that does not begin with a space: with the token `arg` from `offset` on,
and behind its delimiter `gap` spaces and the rest. -/
inductive First : List UInt8 → Nat → List UInt8 → Nat → List UInt8 → Prop
  | quoted {arg rest : List UInt8} (gap : Nat) (_ : quote ∉ arg) :
      First (quote :: (arg ++ quote :: (List.replicate gap space ++ rest))) 1 arg gap rest
  | unclosed {arg : List UInt8} (_ : quote ∉ arg) : First (quote :: arg) 1 arg 0 []
  | bare {arg rest : List UInt8} (gap : Nat) (_ : arg ≠ []) (_ : arg.head? ≠ some quote)
      (_ : space ∉ arg) : First (arg ++ space :: (List.replicate gap space ++ rest)) 0 arg gap rest
  | last {arg : List UInt8} (_ : arg ≠ []) (_ : arg.head? ≠ some quote) (_ : space ∉ arg) :
      First arg 0 arg 0 []

/-- The tokens of a text, the first character of which stands at `p`, each with the place
where it starts. -/
inductive Tokens : Nat → List UInt8 → List (Nat × List UInt8) → Prop
  | nil (p : Nat) : Tokens p [] []
  | cons {p offset gap : Nat} {text arg rest : List UInt8} {tokens : List (Nat × List UInt8)}
      (_ : First text offset arg gap rest) (_ : ∀ c ∈ rest.head?, c ≠ space)
      (_ : Tokens (p + (text.length - rest.length)) rest tokens) :
      Tokens p text ((p + offset, arg) :: tokens)

section Turn
variable {m : Mem} {p offset gap : Nat} {text arg rest : List UInt8}

theorem First.ne_nil (h : First text offset arg gap rest) : text ≠ [] := by
  cases h with
  | quoted => exact List.cons_ne_nil _ _
  | unclosed => exact List.cons_ne_nil _ _
  | bare _ hne => exact List.append_ne_nil_of_left_ne_nil hne _
  | last hne => exact hne

theorem First.parses (h : First text offset arg gap rest) (htext : CStr m p text) :
    Parses m p text arg rest (p + offset) := by
  have hbare {cs : List UInt8} (hne : arg ≠ []) (hhead : arg.head? ≠ some quote)
      (htext : CStr m p (arg ++ cs)) : Begins m p space p := by
    obtain ⟨c, ds, rfl⟩ := List.exists_cons_of_ne_nil hne
    refine .inr ⟨fun hquote => hhead ?_, rfl, rfl⟩
    rw [List.head?_cons, ← htext.spells.1, hquote]
  cases h with
  | quoted gap hquote =>
    refine Begins.closed (.inl ⟨htext.spells.1, rfl, rfl⟩) htext.next hquote ?_
    simp only [List.length_cons, List.length_append, List.length_replicate]
    omega
  | unclosed hquote =>
    refine Begins.last (.inl ⟨htext.spells.1, rfl, rfl⟩) htext.next hquote ?_
    rw [List.length_cons]
    omega
  | bare gap hne hhead hspace =>
    refine (hbare hne hhead htext).closed htext hspace ?_
    simp only [List.length_cons, List.length_append, List.length_replicate]
    omega
  | last hne hhead hspace =>
    exact (hbare hne hhead (by rwa [List.append_nil])).last htext hspace rfl

theorem returns_skipSpaces (h : CStr m p (List.replicate gap space ++ rest))
    (hhead : ∀ c ∈ rest.head?, c ≠ space) :
    Returns (fun fuel => skipSpaces fuel m p) (p + gap) ∧ CStr m (p + gap) rest := by
  have htail : CStr m (p + gap) rest := by
    have htail := h.tail
    rwa [List.length_replicate] at htail
  have hstop : m (p + gap) ≠ space := by
    cases rest with
    | nil =>
      have hnull : m (p + gap) = 0 := htail.stop
      rw [hnull]
      decide
    | cons c cs =>
      rw [htail.spells.1]
      exact hhead c (by simp)
  have hscan := returns_scanWhile (fun c => c = space) (spells_append.mp h.spells).1
    (fun c hc => by simpa using List.eq_of_mem_replicate hc)
    (by rw [List.length_replicate]; simpa using hstop)
  rw [List.length_replicate] at hscan
  exact ⟨hscan, htail⟩

theorem First.returns_parseTurn (h : First text offset arg gap rest)
    (hhead : ∀ c ∈ rest.head?, c ≠ space) (argc : Nat) (argv : Nat → Nat) (htext : CStr m p text) :
    ∃ m' next left stores,
      Returns (fun fuel => parseTurn fuel ⟨m, argc, argv⟩ p)
        (⟨m', if arg = [] then argc else argc + 1, Function.update argv argc (p + offset)⟩,
          next + left) ∧
      Returns (fun fuel => parseArgumentStores fuel m p argc) (.argv argc :: stores) ∧
      (∀ w ∈ stores, ∃ x ∈ Ico p (p + text.length), w = .byte x) ∧
      CStr m' (next + left) rest ∧
      Cut m p (p + text.length) arg rest m' (p + offset) next left := by
  obtain ⟨m', next, left, hret, hcut, hstores⟩ := h.parses htext
  obtain ⟨hskip, hrest⟩ := returns_skipSpaces hcut.isRest hhead
  obtain ⟨stores, hstores, hbytes⟩ := hstores argc
  have hlen := returns_strlen hcut.isArg
  have hcount : (if arg = [] then argc else argc + 1) =
      if 0 < arg.length then argc + 1 else argc := by
    cases arg with
    | nil => rfl
    | cons c cs => rw [if_neg (List.cons_ne_nil c cs), if_pos (List.length_pos_of_mem (.head cs))]
  refine ⟨m', next, left, stores, ?_, hstores, hbytes, hrest, hcut⟩
  refine hret.bind (parseArgument_mono _ _) ((strlen_mono _ _).bind fun _ =>
    (skipSpaces_mono _ _).bind fun _ => .const _) ?_
  dsimp only
  rw [Function.update_self]
  refine hlen.bind (strlen_mono _ _) ((skipSpaces_mono _ _).bind fun _ => .const _) ?_
  rw [hcount]
  exact hskip.bind (skipSpaces_mono _ _) (.const _) ⟨0, rfl⟩

end Turn

/-- The arguments `args` come to `argv` from `argc` on; only bytes between `lo` and `hi` have
changed. -/
structure Recovers (m : Mem) (lo hi : Nat) (args : List (List UInt8)) (argc : Nat)
    (argv : Nat → Nat) (st : Parsed) : Prop where
  count : st.argc = argc + args.length
  kept : ∀ i < argc, st.argv i = argv i
  frame : ∀ x ∉ Ico lo hi, st.mem x = m x
  found : ∀ i a, args[i]? = some a → CStr st.mem (st.argv (argc + i)) a

section Text
variable {m m' : Mem} {p b start next left stop argc : Nat} {text arg rest : List UInt8}
  {args : List (List UInt8)} {tokens : List (Nat × List UInt8)} {argv : Nat → Nat} {st : Parsed}

theorem Cut.recovers (hcut : Cut m p stop arg rest m' start next left)
    (h : Recovers m' (next + left) (next + left + rest.length) args (argc + 1)
      (Function.update argv argc start) st) : Recovers m p stop (arg :: args) argc argv st := by
  have hends := hcut.ends
  have hafter := hcut.after
  refine ⟨?_, fun i hi => ?_, fun x hx => ?_, fun i a ha => ?_⟩
  · rw [h.count, List.length_cons]
    omega
  · rw [h.kept i (by omega), Function.update_of_ne (by omega)]
  · exact (h.frame x fun ⟨hlo, hhi⟩ => hx ⟨by omega, by omega⟩).trans (hcut.frame x hx)
  · cases i with
    | zero =>
      obtain rfl : arg = a := by simpa using ha
      have hptr : st.argv (argc + 0) = start := by
        rw [Nat.add_zero, h.kept argc (Nat.lt_succ_self argc), Function.update_self]
      rw [hptr]
      refine hcut.isArg.congr fun x ⟨hlo, hhi⟩ => h.frame x fun ⟨hlo', hhi'⟩ => ?_
      rcases hcut.before with hlt | ⟨heq, rfl, rfl⟩
      · omega
      · -- nothing follows, so nothing more is cut
        rw [List.length_nil] at hhi'
        omega
    | succ i =>
      have hnext : argc + (i + 1) = argc + 1 + i := by omega
      rw [hnext]
      exact h.found i a (by simpa using ha)

theorem Cut.recovers_empty (hcut : Cut m p stop arg rest m' start next left)
    (h : Recovers m' (next + left) (next + left + rest.length) args argc
      (Function.update argv argc start) st) : Recovers m p stop args argc argv st := by
  have hends := hcut.ends
  have hafter := hcut.after
  refine ⟨h.count, fun i hi => ?_, fun x hx => ?_, h.found⟩
  · rw [h.kept i hi, Function.update_of_ne (by omega)]
  · exact (h.frame x fun ⟨hlo, hhi⟩ => hx ⟨by omega, by omega⟩).trans (hcut.frame x hx)

/-- The tokens that are recorded once `argc` arguments have been. -/
def recorded (argc : Nat) (tokens : List (Nat × List UInt8)) : List (Nat × List UInt8) :=
  (tokens.filter fun t => t.2 ≠ []).take (shellMaxArgs - argc)

/-- The tokens come to `argv` from `argc` on, each where it stands in the buffer at `b`. -/
structure Collects (b : Nat) (m : Mem) (lo hi : Nat) (tokens : List (Nat × List UInt8)) (argc : Nat)
    (argv : Nat → Nat) (st : Parsed) : Prop where
  recovers : Recovers m lo hi (tokens.map Prod.snd) argc argv st
  slots : ∀ i ≥ shellMaxArgs, st.argv i = argv i
  starts : ∀ i t, tokens[i]? = some t → st.argv (argc + i) = b + t.1

def Store.Within (lo hi : Nat) : Store → Prop
  | .byte a => a ∈ Ico lo hi
  | .argv i => i < shellMaxArgs

theorem Store.Within.mono {lo hi lo' hi' : Nat} {w : Store} (h : w.Within lo hi) (hlo : lo' ≤ lo)
    (hhi : hi ≤ hi') : w.Within lo' hi' := by
  cases w with
  | byte a => exact Ico_subset_Ico hlo hhi h
  | argv i => exact h

theorem Cut.collects {offset : Nat}
    (hcut : Cut m (b + p) stop arg rest m' (b + p + offset) next left) (hroom : argc < shellMaxArgs)
    (h : Collects b m' (next + left) (next + left + rest.length)
      (recorded (if arg = [] then argc else argc + 1) tokens) (if arg = [] then argc else argc + 1)
      (Function.update argv argc (b + p + offset)) st) :
    Collects b m (b + p) stop (recorded argc ((p + offset, arg) :: tokens)) argc argv st := by
  have hslots : ∀ i ≥ shellMaxArgs, st.argv i = argv i := fun i hi => by
    rw [h.slots i hi, Function.update_of_ne (by omega)]
  by_cases hempty : arg = []
  · have hsame : recorded argc ((p + offset, arg) :: tokens) = recorded argc tokens := by
      rw [recorded, List.filter_cons_of_neg (by simpa using hempty)]
      rfl
    rw [if_pos hempty] at h
    rw [hsame]
    exact ⟨hcut.recovers_empty h.recovers, hslots, h.starts⟩
  · have hnext : recorded argc ((p + offset, arg) :: tokens) =
        (p + offset, arg) :: recorded (argc + 1) tokens := by
      obtain ⟨k, hk⟩ : ∃ k, shellMaxArgs - argc = k + 1 := ⟨shellMaxArgs - argc - 1, by omega⟩
      have hk' : shellMaxArgs - (argc + 1) = k := by omega
      rw [recorded, List.filter_cons_of_pos (by simpa using hempty), hk, List.take_succ_cons,
        recorded, hk']
    rw [if_neg hempty] at h
    rw [hnext]
    refine ⟨hcut.recovers h.recovers, hslots, fun i t ht => ?_⟩
    cases i with
    | zero =>
      obtain rfl : (p + offset, arg) = t := by simpa using ht
      rw [Nat.add_zero, h.recovers.kept argc (Nat.lt_succ_self argc), Function.update_self,
        Nat.add_assoc]
    | succ i =>
      have hshift : argc + (i + 1) = argc + 1 + i := by omega
      rw [hshift]
      exact h.starts i t (by simpa using ht)

/-- The loop from `p` on records the tokens still to come, with stores in the text. -/
def Records (b : Nat) (m : Mem) (p : Nat) (text : List UInt8) (tokens : List (Nat × List UInt8))
    (argc : Nat) (argv : Nat → Nat) : Prop :=
  ∃ st stores, Returns (fun fuel => parseLoop fuel ⟨m, argc, argv⟩ (b + p)) st ∧
    Returns (fun fuel => parseLoopStores fuel ⟨m, argc, argv⟩ (b + p)) stores ∧
    (∀ w ∈ stores, w.Within (b + p) (b + p + text.length)) ∧
    Collects b m (b + p) (b + p + text.length) (recorded argc tokens) argc argv st

theorem records_nothing (hstop : ¬(m (b + p) ≠ 0 ∧ argc < shellMaxArgs))
    (hnone : recorded argc tokens = []) : Records b m p text tokens argc argv := by
  refine ⟨_, [], ⟨1, if_neg hstop⟩, ⟨1, if_neg hstop⟩, by simp, ?_⟩
  rw [hnone]
  exact ⟨⟨rfl, fun _ _ => rfl, fun _ _ => rfl, by simp⟩, fun _ _ => rfl, by simp⟩

theorem First.records {offset gap : Nat} (h : First text offset arg gap rest)
    (hhead : ∀ c ∈ rest.head?, c ≠ space) (htext : CStr m (b + p) text)
    (hroom : argc < shellMaxArgs)
    (hrest : ∀ {m argc} argv, argc ≤ shellMaxArgs →
      CStr m (b + (p + (text.length - rest.length))) rest →
      Records b m (p + (text.length - rest.length)) rest tokens argc argv) :
    Records b m p text ((p + offset, arg) :: tokens) argc argv := by
  obtain ⟨m', next, left, stores, hturn, hstores, hbytes, hleft, hcut⟩ :=
    h.returns_parseTurn hhead argc argv htext
  have hends := hcut.ends
  have hafter := hcut.after
  have hplace : next + left = b + (p + (text.length - rest.length)) := by omega
  have hcount : (if arg = [] then argc else argc + 1) ≤ shellMaxArgs := by
    split_ifs <;> omega
  rw [hplace] at hleft hturn
  obtain ⟨st, later, hloop, hlater, hwithin, hcollects⟩ :=
    hrest (Function.update argv argc (b + p + offset)) hcount hleft
  -- a token has a character, so the loop goes on
  have hgo : m (b + p) ≠ 0 ∧ argc < shellMaxArgs := by
    obtain ⟨c, cs, rfl⟩ := List.exists_cons_of_ne_nil h.ne_nil
    refine ⟨fun hnull => htext.inner ?_, hroom⟩
    rw [← hnull, htext.spells.1]
    exact List.mem_cons_self
  refine ⟨st, .argv argc :: stores ++ later, ?_, ?_, fun w hw => ?_, ?_⟩
  · obtain ⟨fuel, hrun⟩ : Returns (fun fuel => (parseTurn fuel ⟨m, argc, argv⟩ (b + p)).bind
        fun r => parseLoop fuel r.1 r.2) st :=
      hturn.bind (parseTurn_mono _ _) (parseLoop_mono _ _) hloop
    exact ⟨fuel + 1, (if_pos hgo).trans hrun⟩
  · obtain ⟨fuel, hrun⟩ : Returns (fun fuel =>
        (parseArgumentStores fuel m (b + p) argc).bind fun stores =>
          (parseTurn fuel ⟨m, argc, argv⟩ (b + p)).bind fun r =>
            (parseLoopStores fuel r.1 r.2).bind fun rest => some (stores ++ rest))
        (.argv argc :: stores ++ later) := by
      refine hstores.bind (parseArgumentStores_mono _ _ _) ((parseTurn_mono _ _).bind fun _ =>
        (parseLoopStores_mono _ _).bind fun _ => .const _) ?_
      refine hturn.bind (parseTurn_mono _ _) ((parseLoopStores_mono _ _).bind fun _ =>
        .const _) ?_
      exact hlater.bind (parseLoopStores_mono _ _) (.const _) ⟨0, rfl⟩
    exact ⟨fuel + 1, (if_pos hgo).trans hrun⟩
  · rcases List.mem_append.mp hw with hw | hw
    · rcases List.mem_cons.mp hw with rfl | hw
      · exact hroom
      · obtain ⟨x, hx, rfl⟩ := hbytes w hw
        exact hx
    · exact (hwithin w hw).mono (by omega) (by omega)
  · rw [← hplace] at hcollects
    exact hcut.collects hroom hcollects

/-- The induction is on how the text falls into tokens. -/
theorem Tokens.records (h : Tokens p text tokens) (hargc : argc ≤ shellMaxArgs)
    (htext : CStr m (b + p) text) : Records b m p text tokens argc argv := by
  induction h generalizing m argc argv with
  | nil p => exact records_nothing (fun hgo => hgo.1 htext.stop) (by simp [recorded])
  | cons hfirst hhead _ ih =>
    rcases Nat.lt_or_ge argc shellMaxArgs with hroom | hfull
    · exact hfirst.records hhead htext hroom fun _ hcount hrest => ih hcount hrest
    · exact records_nothing (fun hgo => absurd hgo.2 (by omega))
        (by rw [recorded, Nat.sub_eq_zero_of_le hfull, List.take_zero])

theorem Tokens.returns_shellParseCommand {lead parseBuffer input : Nat} (h : Tokens lead rest tokens)
    (hhead : ∀ c ∈ rest.head?, c ≠ space) (hshort : lead + rest.length < 256) (argv : Nat → Nat)
    (hinput : CStr m input (List.replicate lead space ++ rest))
    (hapart : input + (lead + rest.length) < parseBuffer ∨
      parseBuffer + shellBufferSize ≤ input) :
    ∃ st stores, Returns (fun fuel => shellParseCommand fuel m parseBuffer input argv) st ∧
      Returns (fun fuel => shellParseCommandStores fuel m parseBuffer input argv) stores ∧
      (∀ w ∈ stores, w.Within parseBuffer (parseBuffer + shellBufferSize)) ∧
      Collects parseBuffer m parseBuffer (parseBuffer + shellBufferSize) (recorded 0 tokens) 0 argv
        st := by
  have hsize : shellBufferSize = 256 := rfl
  have hlength : (List.replicate lead space ++ rest).length = lead + rest.length := by
    rw [List.length_append, List.length_replicate]
  have hplace : input + (List.replicate lead space ++ rest).length < parseBuffer ∨
      parseBuffer + (List.replicate lead space ++ rest).length < input := by
    rw [hlength]
    exact hapart.imp_right fun h => by omega
  obtain ⟨m1, hcopy, htext, hframe⟩ := returns_copyString parseBuffer hinput hplace
  have hcopied := returns_copyStores parseBuffer hinput hplace
  obtain ⟨hskip, hrest⟩ := returns_skipSpaces htext hhead
  have hrecords : Records parseBuffer m1 lead rest tokens 0 argv :=
    h.records (Nat.zero_le shellMaxArgs) hrest
  obtain ⟨st, stores, hloop, hstores, hwithin, ⟨hrecovers, hslots, hstarts⟩⟩ := hrecords
  rw [hlength] at hframe hcopied
  refine ⟨st, (List.range' parseBuffer (lead + rest.length + 1)).map .byte ++ stores, ?_, ?_,
    fun w hw => ?_, ⟨⟨hrecovers.count, hrecovers.kept, fun x hx => ?_, hrecovers.found⟩, hslots,
      hstarts⟩⟩
  · refine hcopy.bind (copyString_mono _ _ _) ((skipSpaces_mono _ _).bind fun _ =>
      parseLoop_mono _ _) ?_
    exact hskip.bind (skipSpaces_mono _ _) (parseLoop_mono _ _) hloop
  · refine hcopied.bind (copyStores_mono _ _ _) ((copyString_mono _ _ _).bind fun _ =>
      (skipSpaces_mono _ _).bind fun _ => (parseLoopStores_mono _ _).bind fun _ => .const _) ?_
    refine hcopy.bind (copyString_mono _ _ _) ((skipSpaces_mono _ _).bind fun _ =>
      (parseLoopStores_mono _ _).bind fun _ => .const _) ?_
    refine hskip.bind (skipSpaces_mono _ _) ((parseLoopStores_mono _ _).bind fun _ => .const _) ?_
    exact hstores.bind (parseLoopStores_mono _ _) (.const _) ⟨0, rfl⟩
  · rcases List.mem_append.mp hw with hw | hw
    · obtain ⟨x, hx, rfl⟩ := List.mem_map.mp hw
      have hx' := List.mem_range'_1.mp hx
      exact ⟨hx'.1, by omega⟩
    · exact (hwithin w hw).mono (by omega) (by omega)
  · have hloop : st.mem x = m1 x := hrecovers.frame x fun ⟨hlo, hhi⟩ => hx ⟨by omega, by omega⟩
    exact hloop.trans (hframe fun ⟨hlo, hhi⟩ => hx ⟨by omega, by omega⟩)

theorem Collects.none (b lo hi : Nat) (m : Mem) (argv : Nat → Nat) :
    Collects b m lo hi [] 0 argv ⟨m, 0, argv⟩ := by
  refine ⟨⟨rfl, fun _ _ => rfl, fun _ _ => rfl, ?_⟩, fun _ _ => rfl, ?_⟩
  · simp
  · simp

theorem Tokens.returns_shellExecuteCommand {lead parseBuffer input : Nat}
    (h : Tokens lead rest tokens) (hhead : ∀ c ∈ rest.head?, c ≠ space)
    (hshort : lead + rest.length < 256) (argv : Nat → Nat)
    (hinput : CStr m input (List.replicate lead space ++ rest))
    (hapart : input + (lead + rest.length) < parseBuffer ∨
      parseBuffer + shellBufferSize ≤ input) :
    ∃ st stores, Returns (fun fuel => shellExecuteCommand fuel m parseBuffer input argv) st ∧
      Returns (fun fuel => shellExecuteCommandStores fuel m parseBuffer input argv) stores ∧
      (∀ w ∈ stores, w.Within parseBuffer (parseBuffer + shellBufferSize)) ∧
      Collects parseBuffer m parseBuffer (parseBuffer + shellBufferSize) (recorded 0 tokens) 0 argv
        st := by
  obtain ⟨hskip, hrest⟩ := returns_skipSpaces hinput hhead
  have hgo := Mono.ite (c := m (input + lead) = 0) (.const (some ⟨m, 0, argv⟩))
    (shellParseCommand_mono m parseBuffer input argv)
  have hgoStores := Mono.ite (c := m (input + lead) = 0) (.const (some []))
    (shellParseCommandStores_mono m parseBuffer input argv)
  cases h with
  | nil =>
    have hblank : m (input + lead) = 0 := hrest.stop
    exact ⟨⟨m, 0, argv⟩, [], hskip.bind (skipSpaces_mono _ _) hgo (.ite_pos hblank ⟨0, rfl⟩),
      hskip.bind (skipSpaces_mono _ _) hgoStores (.ite_pos hblank ⟨0, rfl⟩), by simp,
      .none _ _ _ m argv⟩
  | cons hfirst hhead' htokens =>
    have hblank : m (input + lead) ≠ 0 := by
      obtain ⟨c, cs, rfl⟩ := List.exists_cons_of_ne_nil hfirst.ne_nil
      rw [hrest.spells.1]
      exact fun h0 => hrest.inner (by simp [h0])
    obtain ⟨st, stores, hrun, hruns, hin, hcollects⟩ :=
      (Tokens.cons hfirst hhead' htokens).returns_shellParseCommand hhead hshort argv hinput hapart
    exact ⟨st, stores, hskip.bind (skipSpaces_mono _ _) hgo (.ite_neg hblank hrun),
      hskip.bind (skipSpaces_mono _ _) hgoStores (.ite_neg hblank hruns), hin, hcollects⟩

end Text

end AlvOS.Shell
