import AlvOS.Lib.Recent
import AlvOS.Lib.Transition
import AlvOS.Shell.Tokens

/-! The command history of shell.c.  Rows are shifted in place by string copies over what
they held before; what they show is the last ten commands, of which equal neighbours count
once. -/

namespace AlvOS.Shell
open ByteMemory CString Fuel Set Function Transition

theorem shiftRows_mono (m : Mem) (history n : Nat) : Mono fun fuel => shiftRows fuel m history n := by
  induction n with
  | zero => exact .const _
  | succ n ih => exact ih.bind fun _ => copyString_mono _ _ _

theorem repeatsLast_mono (history : Nat) (h : History) (command : Nat) :
    Mono fun fuel => repeatsLast fuel history h command :=
  .ite ((strcmp_mono _ _ _).map _) (.const _)

theorem evict_mono (history : Nat) (h : History) : Mono fun fuel => evict fuel history h :=
  .ite ((shiftRows_mono _ _ _).bind fun _ => .const _) (.const _)

theorem copyRowStores_mono (m : Mem) (history row src : Nat) :
    Mono fun fuel => copyRowStores fuel m history row src :=
  (copyStores_mono _ _ _).bind fun _ => .const _

theorem shiftRowsStores_mono (m : Mem) (history n : Nat) :
    Mono fun fuel => shiftRowsStores fuel m history n := by
  induction n with
  | zero => exact .const _
  | succ n ih =>
    exact ih.bind fun _ => (shiftRows_mono _ _ _).bind fun _ =>
      (copyRowStores_mono _ _ _ _).bind fun _ => .const _

theorem evictStores_mono (history : Nat) (h : History) :
    Mono fun fuel => evictStores fuel history h :=
  .ite (shiftRowsStores_mono _ _ _) (.const _)

theorem appendRow_mono (history : Nat) (h : History) (command : Nat) :
    Mono fun fuel => appendRow fuel history h command :=
  (evict_mono _ _).bind fun _ => (copyString_mono _ _ _).bind fun _ => .const _

theorem appendRowStores_mono (history : Nat) (h : History) (command : Nat) :
    Mono fun fuel => appendRowStores fuel history h command :=
  (evictStores_mono _ _).bind fun _ => (evict_mono _ _).bind fun _ =>
    (copyRowStores_mono _ _ _ _).bind fun _ => .const _

theorem shellAddToHistory_mono (history : Nat) (h : History) (command : Nat) :
    Mono fun fuel => shellAddToHistory fuel history h command :=
  (strlen_mono _ _).bind fun _ => .ite (.const _) ((repeatsLast_mono _ _ _).bind fun _ =>
    .ite (.const _) (appendRow_mono _ _ _))

theorem shellAddToHistoryStores_mono (history : Nat) (h : History) (command : Nat) :
    Mono fun fuel => shellAddToHistoryStores fuel history h command :=
  (strlen_mono _ _).bind fun _ => .ite (.const _) ((repeatsLast_mono _ _ _).bind fun _ =>
    .ite (.const _) (appendRowStores_mono _ _ _))

def Table (m : Mem) (history : Nat) (rows : Nat → List UInt8) : Prop :=
  ∀ i < 10, CStr m (historyRow history i) (rows i) ∧ (rows i).length < 256

def historyBytes (history : Nat) : Set Nat := Ico history (history + 2560)

def InRows (stores : List (Nat × Nat)) : Prop := ∀ s ∈ stores, s.1 < 10 ∧ s.2 < 256

section Rows
variable {m : Mem} {history j src : Nat} {rows : Nat → List UInt8} {cs : List UInt8}

theorem Table.copy (h : Table m history rows) (hj : j < 10) (hsrc : CStr m src cs)
    (hshort : cs.length < 256)
    (hapart : src + cs.length < historyRow history j ∨ historyRow history j + 256 ≤ src) :
    ∃ m' stores, Returns (fun fuel => strcpy fuel m (historyRow history j) src) m' ∧
      Returns (fun fuel => copyRowStores fuel m history j src) stores ∧ InRows stores ∧
      Table m' history (update rows j cs) ∧ EqOn m' m (historyBytes history)ᶜ := by
  have hplace : src + cs.length < historyRow history j ∨ historyRow history j + cs.length < src :=
    hapart.imp_right fun h => by omega
  obtain ⟨m', hcopy, hcopied, hframe⟩ := returns_copyString (historyRow history j) hsrc hplace
  have hstores := returns_copyStores (historyRow history j) hsrc hplace
  have hrow : ∀ i, historyRow history i = history + i * 256 := fun i => rfl
  refine ⟨m', _, hcopy, hstores.bind (copyStores_mono _ _ _) (.const _) ⟨0, rfl⟩, fun s hs => ?_,
    fun i hi => ?_, hframe.mono (Set.compl_subset_compl.mpr ?_)⟩
  · obtain ⟨x, hx, rfl⟩ := List.mem_map.mp hs
    have hx' := List.mem_range'_1.mp hx
    exact ⟨hj, by dsimp only; omega⟩
  · by_cases hij : i = j
    · rw [hij, update_self]
      exact ⟨hcopied, hshort⟩
    · rw [update_of_ne hij]
      refine ⟨(h i hi).1.congr (hframe.mono ?_), (h i hi).2⟩
      have hlen := (h i hi).2
      rintro x ⟨hlo, hhi⟩ ⟨hlo', hhi'⟩
      rw [hrow] at hlo hhi hlo' hhi'
      omega
  · rintro x ⟨hlo, hhi⟩
    rw [hrow] at hlo hhi
    exact ⟨by omega, by omega⟩

theorem Table.shift (h : Table m history rows) {n : Nat} (hn : n ≤ 9) :
    ∃ m' stores, Returns (fun fuel => shiftRows fuel m history n) m' ∧
      Returns (fun fuel => shiftRowsStores fuel m history n) stores ∧ InRows stores ∧
      Table m' history (fun i => if i < n then rows (i + 1) else rows i) ∧
      EqOn m' m (historyBytes history)ᶜ := by
  induction n with
  | zero =>
    refine ⟨m, [], ⟨0, rfl⟩, ⟨0, rfl⟩, by simp [InRows], ?_, fun x _ => rfl⟩
    simpa using h
  | succ n ih =>
    obtain ⟨m', before, hshift, hbefore, hin, htable, hframe⟩ := ih (by omega)
    have hnext := htable (n + 1) (by omega)
    dsimp only at hnext
    rw [if_neg (by omega)] at hnext
    have hrow : historyRow history (n + 1) = historyRow history n + 256 := by
      rw [historyRow, historyRow, shellBufferSize]
      omega
    obtain ⟨m'', stores, hcopy, hstores, hin', htable', hframe'⟩ :=
      htable.copy (j := n) (by omega) hnext.1 hnext.2 (.inr hrow.ge)
    refine ⟨m'', before ++ stores, hshift.bind (shiftRows_mono _ _ _) (copyString_mono _ _ _) hcopy,
      ?_, fun s hs => ?_, ?_, fun x hx => (hframe' hx).trans (hframe hx)⟩
    · refine hbefore.bind (shiftRowsStores_mono _ _ _) ((shiftRows_mono _ _ _).bind fun _ =>
        (copyRowStores_mono _ _ _ _).bind fun _ => .const _) ?_
      refine hshift.bind (shiftRows_mono _ _ _) ((copyRowStores_mono _ _ _ _).bind fun _ =>
        .const _) ?_
      exact hstores.bind (copyRowStores_mono _ _ _ _) (.const _) ⟨0, rfl⟩
    · exact (List.mem_append.mp hs).elim (hin s) (hin' s)
    · have hrows : (fun i => if i < n + 1 then rows (i + 1) else rows i) =
          update (fun i => if i < n then rows (i + 1) else rows i) n (rows (n + 1)) := by
        funext i
        rw [update_apply]
        split_ifs with h1 h2 h3
        all_goals first | rfl | omega | rw [h2]
      rw [hrows]
      exact htable'

end Rows

/-- The rows of the table in use hold `lines`. -/
structure Keeps (history : Nat) (h : History) (lines : List (List UInt8)) : Prop where
  count : h.count = lines.length
  length_le : lines.length ≤ 10
  table : ∃ rows, Table h.mem history rows ∧ ∀ i line, lines[i]? = some line → rows i = line

section Add
variable {history command : Nat} {h : History} {lines : List (List UInt8)} {cs : List UInt8}

def Outside (history command : Nat) (cs : List UInt8) : Prop :=
  command + cs.length < history ∨ history + 2560 ≤ command

theorem Keeps.returns_repeatsLast (hk : Keeps history h lines) (hcs : CStr h.mem command cs) :
    Returns (fun fuel => repeatsLast fuel history h command)
      (decide (lines.getLast? = some cs)) := by
  obtain ⟨rows, htable, hlines⟩ := hk.table
  have hcount := hk.count
  have hle := hk.length_le
  unfold repeatsLast
  cases hlast : lines.getLast? with
  | none =>
    obtain rfl := List.getLast?_eq_none_iff.mp hlast
    rw [List.length_nil] at hcount
    exact ⟨0, (if_neg (by omega)).trans rfl⟩
  | some line =>
    rw [List.getLast?_eq_getElem?] at hlast
    have hpos : lines.length - 1 < lines.length := (List.getElem?_eq_some_iff.mp hlast).1
    have hrow := (htable (h.count - 1) (by omega)).1
    have hline : rows (h.count - 1) = line := hlines _ _ (by rw [hcount]; exact hlast)
    have hsame : (decide (some line = some cs)) =
        decide (difference (rows (h.count - 1)) cs = 0) := by
      rw [hline]
      refine decide_eq_decide.mpr ?_
      rw [Option.some_inj]
      exact (difference_eq_zero_iff (hline ▸ hrow.inner) hcs.inner).symm
    rw [hsame]
    exact .ite_pos (by omega) ((returns_strcmp hrow hcs).map _)

/-- A full history makes room by dropping its oldest line. -/
theorem Keeps.returns_evict (hk : Keeps history h lines) :
    ∃ h' stores, Returns (fun fuel => evict fuel history h) h' ∧
      Returns (fun fuel => evictStores fuel history h) stores ∧ InRows stores ∧
      Keeps history h' (lines.rtake 9) ∧ EqOn h'.mem h.mem (historyBytes history)ᶜ := by
  obtain ⟨rows, htable, hlines⟩ := hk.table
  have hcount := hk.count
  have hle := hk.length_le
  have hsize : shellHistorySize = 10 := rfl
  unfold evict evictStores
  by_cases hfull : shellHistorySize ≤ h.count
  · simp only [if_pos hfull]
    obtain ⟨m, stores, hshift, hstores, hin, htable', hframe⟩ :=
      htable.shift (show shellHistorySize - 1 ≤ 9 by omega)
    have hdrop : lines.rtake 9 = lines.drop 1 := by
      rw [List.rtake]
      congr 1
      omega
    refine ⟨_, stores, hshift.bind (shiftRows_mono _ _ _) (.const _) ⟨0, rfl⟩, hstores, hin,
      ⟨?_, ?_, _, htable', fun i line hi => ?_⟩, hframe⟩
    · rw [hdrop, List.length_drop]
      dsimp only
      omega
    · rw [hdrop, List.length_drop]
      omega
    · rw [hdrop, List.getElem?_drop] at hi
      have hlt := (List.getElem?_eq_some_iff.mp hi).1
      rw [if_pos (by omega)]
      exact hlines _ _ (by rw [Nat.add_comm]; exact hi)
  · simp only [if_neg hfull]
    have hsame : lines.rtake 9 = lines := Recent.rtake_of_length_le (by omega)
    rw [hsame]
    exact ⟨h, [], ⟨0, rfl⟩, ⟨0, rfl⟩, by simp [InRows], hk, fun x _ => rfl⟩

def addLine (lines : List (List UInt8)) (cs : List UInt8) : List (List UInt8) :=
  if cs ≠ [] then Recent.push 10 lines cs else lines

theorem Keeps.returns_appendRow (hk : Keeps history h lines) (hcs : CStr h.mem command cs)
    (hshort : cs.length < 256) (hout : Outside history command cs) :
    ∃ h' stores, Returns (fun fuel => appendRow fuel history h command) h' ∧
      Returns (fun fuel => appendRowStores fuel history h command) stores ∧ InRows stores ∧
      Keeps history h' (lines.rtake 9 ++ [cs]) ∧ EqOn h'.mem h.mem (historyBytes history)ᶜ := by
  obtain ⟨h1, evicted, hevict, hevictStores, hin, hk1, hframe⟩ := hk.returns_evict
  obtain ⟨rows, htable, hlines⟩ := hk1.table
  have hcount := hk1.count
  have hroom : (lines.rtake 9).length ≤ 9 := by
    rw [Recent.length_rtake]
    exact Nat.min_le_left _ _
  have hcs1 : CStr h1.mem command cs := hcs.frame hframe hout
  have hapart : command + cs.length < historyRow history h1.count ∨
      historyRow history h1.count + 256 ≤ command := by
    rw [historyRow, shellBufferSize]
    unfold Outside at hout
    omega
  obtain ⟨m, stores, hcopy, hstores, hin', htable', hframe'⟩ :=
    htable.copy (j := h1.count) (by omega) hcs1 hshort hapart
  refine ⟨⟨m, h1.count + 1, h1.count + 1⟩, evicted ++ stores, ?_, ?_, fun s hs => ?_,
    ⟨?_, ?_, _, htable', fun i line hi => ?_⟩, fun x hx => (hframe' hx).trans (hframe hx)⟩
  · refine hevict.bind (evict_mono _ _) ((copyString_mono _ _ _).bind fun _ => .const _) ?_
    exact hcopy.bind (copyString_mono _ _ _) (.const _) ⟨0, rfl⟩
  · refine hevictStores.bind (evictStores_mono _ _) ((evict_mono _ _).bind fun _ =>
      (copyRowStores_mono _ _ _ _).bind fun _ => .const _) ?_
    refine hevict.bind (evict_mono _ _) ((copyRowStores_mono _ _ _ _).bind fun _ => .const _) ?_
    exact hstores.bind (copyRowStores_mono _ _ _ _) (.const _) ⟨0, rfl⟩
  · exact (List.mem_append.mp hs).elim (hin s) (hin' s)
  · rw [List.length_append, List.length_singleton, ← hcount]
  · rw [List.length_append, List.length_singleton]
    omega
  · rw [List.getElem?_append] at hi
    split_ifs at hi with hlt
    · rw [update_of_ne (by omega)]
      exact hlines i line hi
    · have hlast := List.getElem?_eq_some_iff.mp hi
      obtain ⟨hzero, heq⟩ := hlast
      rw [List.length_singleton] at hzero
      rw [List.getElem_singleton] at heq
      have hnew : i = h1.count := by omega
      rw [hnew, update_self, heq]

theorem Keeps.returns_tests {α : Type} (hk : Keeps history h lines) (hcs : CStr h.mem command cs)
    {skip r : α} {go : Nat → Option α} (hgo : Mono go)
    (hcase : (cs = [] ∨ lines.getLast? = some cs) ∧ r = skip ∨
      cs ≠ [] ∧ lines.getLast? ≠ some cs ∧ Returns go r) :
    Returns (fun fuel => (strlen fuel h.mem command).bind fun len =>
      if len = 0 then some skip
      else (repeatsLast fuel history h command).bind fun same =>
        if same then some skip else go fuel) r := by
  have hbranch (same : Bool) : Mono fun fuel => if same then some skip else go fuel :=
    .ite (.const _) hgo
  have htest := hk.returns_repeatsLast hcs
  refine (returns_strlen hcs).bind (strlen_mono _ _)
    (.ite (.const _) ((repeatsLast_mono _ _ _).bind hbranch)) ?_
  by_cases hempty : cs.length = 0
  · obtain ⟨-, rfl⟩ | ⟨hne, -⟩ := hcase
    · exact .ite_pos hempty ⟨0, rfl⟩
    · exact absurd (List.length_eq_zero_iff.mp hempty) hne
  · refine .ite_neg hempty (htest.bind (repeatsLast_mono _ _ _) (hbranch _) ?_)
    obtain ⟨hnil | hlast, rfl⟩ | ⟨-, hlast, hrun⟩ := hcase
    · exact absurd (congrArg List.length hnil) hempty
    · exact .ite_pos (decide_eq_true hlast) ⟨0, rfl⟩
    · exact .ite_neg (by simpa using hlast) hrun

theorem Keeps.returns_add (hk : Keeps history h lines) (hcs : CStr h.mem command cs)
    (hshort : cs.length < 256) (hout : Outside history command cs) :
    ∃ h' stores, Returns (fun fuel => shellAddToHistory fuel history h command) h' ∧
      Returns (fun fuel => shellAddToHistoryStores fuel history h command) stores ∧
      InRows stores ∧ Keeps history h' (addLine lines cs) ∧
      EqOn h'.mem h.mem (historyBytes history)ᶜ := by
  by_cases hskip : cs = [] ∨ lines.getLast? = some cs
  · have hsame : addLine lines cs = lines := by
      rw [addLine, Recent.push]
      split_ifs with hempty hlast
      · rfl
      · exact absurd (hskip.resolve_left hempty) hlast
      · rfl
    rw [hsame]
    exact ⟨h, [], hk.returns_tests hcs (appendRow_mono _ _ _) (.inl ⟨hskip, rfl⟩),
      hk.returns_tests hcs (appendRowStores_mono _ _ _) (.inl ⟨hskip, rfl⟩), by simp [InRows], hk,
      fun x _ => rfl⟩
  · obtain ⟨hempty, hlast⟩ := not_or.mp hskip
    obtain ⟨h', stores, happend, hstores, hin, hk', hframe⟩ := hk.returns_appendRow hcs hshort hout
    rw [addLine, if_pos hempty, Recent.push, if_neg hlast, List.rtake_concat_succ]
    exact ⟨h', stores,
      hk.returns_tests hcs (appendRow_mono _ _ _) (.inr ⟨hempty, hlast, happend⟩),
      hk.returns_tests hcs (appendRowStores_mono _ _ _) (.inr ⟨hempty, hlast, hstores⟩), hin, hk',
      hframe⟩

end Add

/-- From `shell_init` on, with rows that are ended as those of the linked image are.  A command
is a string of less than 256 characters outside of the array, where the memory may have
changed between the calls. -/
def historySystem (history : Nat) : System History (List UInt8) where
  init h := ∃ linked, h = historyInit linked ∧
    ∀ i < 10, ∃ row, CStr linked.mem (historyRow history i) row ∧ row.length < 256
  step h cs h' := ∃ m command, EqOn m h.mem (historyBytes history) ∧ CStr m command cs ∧
    cs.length < 256 ∧ Outside history command cs ∧
    Returns (fun fuel => shellAddToHistory fuel history { h with mem := m } command) h'

section Runs
variable {history : Nat} {s t : History} {commands lines : List (List UInt8)}

theorem Keeps.congr (hk : Keeps history s lines) {m : Mem}
    (heq : EqOn m s.mem (historyBytes history)) : Keeps history { s with mem := m } lines := by
  obtain ⟨rows, htable, hlines⟩ := hk.table
  refine ⟨hk.count, hk.length_le, rows, fun i hi => ?_, hlines⟩
  obtain ⟨hrow, hshort⟩ := htable i hi
  refine ⟨hrow.congr (heq.mono ?_), hshort⟩
  rintro x ⟨hlo, hhi⟩
  rw [historyRow, shellBufferSize] at hlo hhi
  exact ⟨by omega, by omega⟩

theorem Keeps.frame (hk : Keeps history s lines) {m : Mem} {lo hi : Nat}
    (heq : EqOn m s.mem (Ico lo hi)ᶜ) (hapart : hi ≤ history ∨ history + 2560 ≤ lo) :
    Keeps history { s with mem := m } lines := by
  refine hk.congr (heq.mono ?_)
  rintro x ⟨hlo, hhi⟩ ⟨hlo', hhi'⟩
  omega

theorem Keeps.run (hk : Keeps history s lines) (hrun : (historySystem history).Run s commands t) :
    Keeps history t (commands.foldl addLine lines) := by
  induction hrun generalizing lines with
  | nil => exact hk
  | @cons s _ _ cs _ hstep _ ih =>
    obtain ⟨m, command, heq, hcs, hshort, hout, hret⟩ := hstep
    obtain ⟨h', -, hret', -, -, hk', -⟩ := (hk.congr heq).returns_add hcs hshort hout
    obtain rfl := hret.unique (shellAddToHistory_mono _ _ _) hret'
    exact ih hk'

theorem keeps_init (hs : (historySystem history).init s) : Keeps history s [] := by
  obtain ⟨linked, rfl, hrows⟩ := hs
  choose! rows hrows using hrows
  exact ⟨rfl, Nat.zero_le _, rows, hrows, by simp⟩

theorem foldl_addLine (commands : List (List UInt8)) :
    commands.foldl addLine [] = Recent.recent 10 (commands.filter (· ≠ [])) := by
  rw [← Recent.foldl_push (by decide), List.foldl_filter]
  simp only [decide_eq_true_eq]
  rfl

end Runs

/-- After any sequence of commands the history holds the last ten that are left when the empty
ones are dropped and equal neighbours count once.  Every row stays ended inside its 256 bytes,
and the next call returns. -/
theorem history_is_recent {history : Nat} {s t : History} {commands : List (List UInt8)}
    (hs : (historySystem history).init s) (hrun : (historySystem history).Run s commands t) :
    let lines := ((commands.filter (· ≠ [])).destutter (· ≠ ·)).rtake 10
    t.count = lines.length ∧
    (∀ (i : Nat) line, lines[i]? = some line → CStr t.mem (historyRow history i) line) ∧
    (∀ i < 10, ∃ row, CStr t.mem (historyRow history i) row ∧ row.length < 256) ∧
    ∀ m command cs, EqOn m t.mem (historyBytes history) → CStr m command cs → cs.length < 256 →
      Outside history command cs → ∃ u, (historySystem history).step t cs u := by
  have hk := (keeps_init hs).run hrun
  rw [foldl_addLine] at hk
  obtain ⟨rows, htable, hlines⟩ := hk.table
  refine ⟨hk.count, fun i line hi => ?_, fun i hi => ⟨rows i, htable i hi⟩,
    fun m command cs heq hcs hshort hout => ?_⟩
  · have hlt := (List.getElem?_eq_some_iff.mp hi).1
    have hrow := (htable i (hlt.trans_le hk.length_le)).1
    rwa [hlines i line hi] at hrow
  · obtain ⟨u, -, hret, -⟩ := (hk.congr heq).returns_add hcs hshort hout
    exact ⟨u, m, command, heq, hcs, hshort, hout, hret⟩

def linkedHistory : History := ⟨fun _ => 0, 0, 0⟩

theorem linkedHistory_init : (historySystem 4096).init (historyInit linkedHistory) :=
  ⟨linkedHistory, rfl, fun i _ => ⟨[], ⟨trivial, rfl, by simp⟩, by decide⟩⟩

theorem exists_historyRun {s : History} {lines commands : List (List UInt8)}
    (hk : Keeps 4096 s lines) (hcommands : ∀ cs ∈ commands, 0 ∉ cs ∧ cs.length < 256) :
    ∃ t, (historySystem 4096).Run s commands t := by
  induction commands generalizing s lines with
  | nil => exact ⟨s, .nil s⟩
  | cons cs commands ih =>
    obtain ⟨⟨hinner, hshort⟩, hrest⟩ := List.forall_mem_cons.mp hcommands
    let m : Mem := fun x => if x < 4096 then cs.getD x 0 else s.mem x
    have heq : EqOn m s.mem (historyBytes 4096) := fun x hx => if_neg (Nat.not_lt.mpr hx.1)
    have hcs : CStr m 0 cs :=
      .of_getD (fun i hi => (congrArg m (Nat.zero_add i)).trans (if_pos (by omega))) hinner
    have hout : Outside 4096 0 cs := .inl (by omega)
    obtain ⟨t, -, hret, -, -, hk', -⟩ := (hk.congr heq).returns_add hcs hshort hout
    obtain ⟨u, hrun⟩ := ih hk' hrest
    exact ⟨u, .cons ⟨m, 0, heq, hcs, hshort, hout, hret⟩ hrun⟩

/-- `a`, an empty line, `a` again and the letters to `k`: of eleven lines `a` is gone. -/
theorem history_is_recent_letters : ∃ t,
    (historySystem 4096).Run (historyInit linkedHistory)
      ([97] :: [] :: (List.range 11).map fun i => [.ofNat (97 + i)]) t ∧
    t.count = 10 ∧ CStr t.mem (historyRow 4096 0) [98] ∧ CStr t.mem (historyRow 4096 9) [107] := by
  obtain ⟨t, hrun⟩ := exists_historyRun (keeps_init linkedHistory_init)
    (show ∀ cs ∈ [97] :: [] :: (List.range 11).map fun i => [UInt8.ofNat (97 + i)],
      0 ∉ cs ∧ cs.length < 256 by decide)
  obtain ⟨hcount, hrow, -⟩ := history_is_recent linkedHistory_init hrun
  exact ⟨t, hrun, hcount, hrow 0 [98] (by decide), hrow 9 [107] (by decide)⟩

end AlvOS.Shell
