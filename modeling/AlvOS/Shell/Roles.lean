import Mathlib.Data.List.Basic
import AlvOS.Shell.Tokens

/-! Arbitrary commands.  Every text falls into tokens, whatever its quotes and spaces, and
every character that is part of an argument belongs to exactly one of them. -/

namespace AlvOS.Shell
open ByteMemory Fuel Set Terminal

/-- A space outside a quoted argument, a quote that opens or closes one, or part of an
argument. -/
inductive Role
  | gap | delimiter | argument
deriving DecidableEq

inductive Place
  | between | bare | quoted

def roles : Place → List UInt8 → List Role
  | _, [] => []
  | .between, c :: cs =>
    if c = space then .gap :: roles .between cs
    else if c = quote then .delimiter :: roles .quoted cs
    else .argument :: roles .bare cs
  | .bare, c :: cs => if c = space then .gap :: roles .between cs else .argument :: roles .bare cs
  | .quoted, c :: cs =>
    if c = quote then .delimiter :: roles .between cs else .argument :: roles .quoted cs

section Roles
variable {text arg rest : List UInt8} {p offset gap : Nat} {tokens : List (Nat × List UInt8)}

theorem roles_spaces (gap : Nat) (rest : List UInt8) :
    roles .between (List.replicate gap space ++ rest) =
      List.replicate gap .gap ++ roles .between rest := by
  induction gap with
  | zero => rfl
  | succ gap ih =>
    rw [List.replicate_succ, List.cons_append, roles, if_pos rfl, ih]
    rfl

theorem roles_open (rest : List UInt8) :
    roles .between (quote :: rest) = .delimiter :: roles .quoted rest := by
  rw [roles, if_neg (by decide), if_pos rfl]

theorem roles_argument {place : Place} {delimiter : UInt8} (hplace : ∀ c cs, c ≠ delimiter →
      roles place (c :: cs) = .argument :: roles place cs) (h : delimiter ∉ arg)
    (rest : List UInt8) :
    roles place (arg ++ rest) = List.replicate arg.length .argument ++ roles place rest := by
  induction arg with
  | nil => rfl
  | cons c arg ih =>
    rw [List.mem_cons, not_or] at h
    rw [List.cons_append, hplace c _ (Ne.symm h.1), ih h.2]
    rfl

theorem roles_quoted (h : quote ∉ arg) (rest : List UInt8) :
    roles .quoted (arg ++ rest) = List.replicate arg.length .argument ++ roles .quoted rest :=
  roles_argument (fun c cs hc => by rw [roles, if_neg hc]) h rest

theorem roles_bare (h : space ∉ arg) (rest : List UInt8) :
    roles .bare (arg ++ rest) = List.replicate arg.length .argument ++ roles .bare rest :=
  roles_argument (fun c cs hc => by rw [roles, if_neg hc]) h rest

theorem roles_between (hne : arg ≠ []) (hhead : arg.head? ≠ some quote) (hspace : space ∉ arg)
    (rest : List UInt8) : roles .between (arg ++ rest) = roles .bare (arg ++ rest) := by
  obtain ⟨c, cs, rfl⟩ := List.exists_cons_of_ne_nil hne
  have hquote : c ≠ quote := fun heq => hhead (by rw [heq, List.head?_cons])
  have hc : c ≠ space := fun heq => hspace (by rw [heq]; exact List.mem_cons_self)
  rw [List.cons_append, roles, roles, if_neg hc, if_neg hquote, if_neg hc]

theorem First.roles (h : First text offset arg gap rest) :
    ∃ before after, roles .between text =
        before ++ (List.replicate arg.length .argument ++ (after ++ roles .between rest)) ∧
      before.length = offset ∧ .argument ∉ before ∧ .argument ∉ after ∧
      text.length = offset + arg.length + after.length + rest.length ∧
      (after = [] → rest = []) := by
  have hgaps : ∀ gap : Nat, Role.argument ∉ List.replicate gap Role.gap := by
    intro gap h
    exact absurd (List.eq_of_mem_replicate h) (by decide)
  cases h with
  | quoted gap hquote =>
    refine ⟨[.delimiter], .delimiter :: List.replicate gap .gap, ?_, rfl, by decide, ?_, ?_,
      fun h => absurd h (List.cons_ne_nil _ _)⟩
    · rw [roles_open, roles_quoted hquote, Shell.roles, if_pos rfl, roles_spaces]
      rfl
    · rw [List.mem_cons, not_or]
      exact ⟨by decide, hgaps gap⟩
    · simp only [List.length_cons, List.length_append, List.length_replicate]
      omega
  | unclosed hquote =>
    refine ⟨[.delimiter], [], ?_, rfl, by decide, by simp, ?_, fun _ => rfl⟩
    · have hroles := roles_quoted hquote []
      rw [List.append_nil] at hroles
      rw [roles_open, hroles]
      rfl
    · simp only [List.length_cons, List.length_nil]
      omega
  | bare gap hne hhead hspace =>
    refine ⟨[], .gap :: List.replicate gap .gap, ?_, rfl, by simp, ?_, ?_,
      fun h => absurd h (List.cons_ne_nil _ _)⟩
    · rw [roles_between hne hhead hspace, roles_bare hspace, Shell.roles, if_pos rfl, roles_spaces]
      rfl
    · rw [List.mem_cons, not_or]
      exact ⟨by decide, hgaps gap⟩
    · simp only [List.length_cons, List.length_append, List.length_replicate]
      omega
  | last hne hhead hspace =>
    refine ⟨[], [], ?_, rfl, by simp, by simp, by simp, fun _ => rfl⟩
    have hroles := roles_between hne hhead hspace []
    rw [roles_bare hspace, List.append_nil] at hroles
    rw [hroles]
    rfl

theorem First.suffix (h : First text offset arg gap rest) : rest <:+ text := by
  cases h with
  | @quoted arg rest gap _ =>
    exact ⟨quote :: (arg ++ quote :: List.replicate gap space), by simp⟩
  | unclosed => exact List.nil_suffix
  | @bare arg rest gap _ _ _ => exact ⟨arg ++ space :: List.replicate gap space, by simp⟩
  | last => exact List.nil_suffix

theorem First.prefix_drop (h : First text offset arg gap rest) : arg <+: text.drop offset := by
  cases h with
  | quoted => exact List.prefix_append _ _
  | unclosed => exact List.prefix_refl _
  | bare => exact List.prefix_append _ _
  | last => exact List.prefix_refl _

theorem Tokens.within (h : Tokens p text tokens) :
    ∀ t ∈ tokens, p ≤ t.1 ∧ t.1 + t.2.length ≤ p + text.length := by
  induction h with
  | nil => simp
  | @cons p offset gap text arg rest tokens hfirst _ _ ih =>
    obtain ⟨before, after, -, -, -, -, hlength, -⟩ := hfirst.roles
    intro t ht
    rcases List.mem_cons.mp ht with rfl | ht
    · exact ⟨Nat.le_add_right _ _, by dsimp only; omega⟩
    · have := ih t ht
      omega

theorem Tokens.pairwise (h : Tokens p text tokens) :
    tokens.Pairwise fun s t => s.1 + s.2.length < t.1 := by
  induction h with
  | nil => exact .nil
  | @cons p offset gap text arg rest tokens hfirst _ hrest ih =>
    obtain ⟨before, after, -, -, -, -, hlength, hend⟩ := hfirst.roles
    refine .cons (fun t ht => ?_) ih
    have hafter : 0 < after.length := by
      rw [List.length_pos_iff]
      intro hnone
      obtain rfl := hend hnone
      cases hrest with
      | nil => cases ht
      | cons hfirst => exact hfirst.ne_nil rfl
    have := hrest.within t ht
    dsimp only
    omega

theorem Tokens.prefix_drop (h : Tokens p text tokens) :
    ∀ t ∈ tokens, t.2 <+: text.drop (t.1 - p) := by
  induction h with
  | nil => simp
  | @cons p offset gap text arg rest tokens hfirst _ hrest ih =>
    intro t ht
    rcases List.mem_cons.mp ht with rfl | ht
    · dsimp only
      rw [Nat.add_sub_cancel_left]
      exact hfirst.prefix_drop
    · have hdrop := List.suffix_iff_eq_drop.mp hfirst.suffix
      have hwithin := hrest.within t ht
      have hin := ih t ht
      rw [hdrop, List.drop_drop] at hin
      have hplace : text.length - rest.length + (t.1 - (p + (text.length - rest.length))) =
          t.1 - p := by omega
      rwa [← hdrop, hplace] at hin

/-- A character is part of an argument exactly when it stands in one of the tokens. -/
theorem Tokens.role_iff (h : Tokens p text tokens) (j : Nat) :
    (roles .between text)[j]? = some .argument ↔
      ∃ t ∈ tokens, t.1 ≤ p + j ∧ p + j < t.1 + t.2.length := by
  induction h generalizing j with
  | nil => simp [roles]
  | @cons p offset gap text arg rest tokens hfirst _ hrest ih =>
    obtain ⟨before, after, hroles, rfl, hbefore, hafter, hlength, -⟩ := hfirst.roles
    rw [hroles, List.exists_mem_cons_iff]
    dsimp only
    -- the characters around the first token stand in no token
    have hnone (hout : j < before.length ∨ before.length + arg.length ≤ j ∧
        j < text.length - rest.length) :
        ¬(p + before.length ≤ p + j ∧ p + j < p + before.length + arg.length ∨
          ∃ t ∈ tokens, t.1 ≤ p + j ∧ p + j < t.1 + t.2.length) := by
      rintro (hin | ⟨t, ht, hin⟩)
      · omega
      · have := hrest.within t ht
        omega
    rcases Nat.lt_or_ge j before.length with h1 | h1
    · rw [List.getElem?_append_left h1]
      exact iff_of_false (fun h => hbefore (List.mem_of_getElem? h)) (hnone (.inl h1))
    rw [List.getElem?_append_right h1]
    rcases Nat.lt_or_ge (j - before.length) arg.length with h2 | h2
    · rw [List.getElem?_append_left (by rwa [List.length_replicate]),
        List.getElem?_replicate_of_lt h2]
      exact iff_of_true rfl (.inl (by omega))
    rw [List.getElem?_append_right (by rwa [List.length_replicate]), List.length_replicate]
    rcases Nat.lt_or_ge (j - before.length - arg.length) after.length with h3 | h3
    · rw [List.getElem?_append_left h3]
      exact iff_of_false (fun h => hafter (List.mem_of_getElem? h))
        (hnone (.inr ⟨by omega, by omega⟩))
    rw [List.getElem?_append_right h3, ih]
    have hplace : p + (text.length - rest.length) + (j - before.length - arg.length - after.length) =
        p + j := by omega
    rw [hplace]
    exact ⟨.inr, fun h => h.resolve_left (by omega)⟩

theorem exists_spaces (text : List UInt8) : ∃ gap rest, text = List.replicate gap space ++ rest ∧
    ∀ c ∈ rest.head?, c ≠ space := by
  induction text with
  | nil => exact ⟨0, [], rfl, by simp⟩
  | cons c cs ih =>
    by_cases hc : c = space
    · obtain ⟨gap, rest, rfl, hhead⟩ := ih
      exact ⟨gap + 1, rest, by rw [hc]; rfl, hhead⟩
    · exact ⟨0, c :: cs, rfl, by simpa using hc⟩

theorem exists_first {c : UInt8} (hc : c ≠ space) (cs : List UInt8) :
    ∃ offset arg gap rest, First (c :: cs) offset arg gap rest ∧ ∀ d ∈ rest.head?, d ≠ space := by
  by_cases hquote : c = quote
  · subst hquote
    by_cases hclosed : quote ∈ cs
    · obtain ⟨arg, behind, rfl, harg⟩ := List.eq_append_cons_of_mem hclosed
      obtain ⟨gap, rest, rfl, hhead⟩ := exists_spaces behind
      exact ⟨1, arg, gap, rest, .quoted gap harg, hhead⟩
    · exact ⟨1, cs, 0, [], .unclosed hclosed, by simp⟩
  · by_cases hspace : space ∈ cs
    · obtain ⟨arg, behind, rfl, harg⟩ := List.eq_append_cons_of_mem hspace
      obtain ⟨gap, rest, rfl, hhead⟩ := exists_spaces behind
      refine ⟨0, c :: arg, gap, rest, .bare gap (List.cons_ne_nil _ _) (by simpa using hquote) ?_,
        hhead⟩
      rw [List.mem_cons, not_or]
      exact ⟨Ne.symm hc, harg⟩
    · refine ⟨0, c :: cs, 0, [], .last (List.cons_ne_nil _ _) (by simpa using hquote) ?_, by simp⟩
      rw [List.mem_cons, not_or]
      exact ⟨Ne.symm hc, hspace⟩

theorem exists_tokens (p : Nat) (text : List UInt8) (hhead : ∀ c ∈ text.head?, c ≠ space) :
    ∃ tokens, Tokens p text tokens := by
  match text with
  | [] => exact ⟨[], .nil p⟩
  | c :: cs =>
    obtain ⟨offset, arg, gap, rest, hfirst, hrest⟩ := exists_first (hhead c rfl) cs
    obtain ⟨before, after, -, -, -, -, hlength, hend⟩ := hfirst.roles
    have hshorter : rest.length < (c :: cs).length := by
      cases rest with
      | nil => exact Nat.succ_pos _
      | cons d ds =>
        have hafter : 0 < after.length :=
          List.length_pos_iff.mpr fun hnone => List.cons_ne_nil d ds (hend hnone)
        omega
    obtain ⟨tokens, htokens⟩ := exists_tokens (p + ((c :: cs).length - rest.length)) rest hrest
    exact ⟨_, .cons hfirst hrest htokens⟩
termination_by text.length
decreasing_by exact hshorter

theorem exists_unique_token {j : Nat}
    (hpairwise : tokens.Pairwise fun s t => s.1 + s.2.length < t.1)
    (h : ∃ t ∈ tokens, t.1 ≤ j ∧ j < t.1 + t.2.length) :
    ∃! i : Nat, ∃ t, tokens[i]? = some t ∧ t.1 ≤ j ∧ j < t.1 + t.2.length := by
  obtain ⟨t, ht, hin⟩ := h
  obtain ⟨i, hi⟩ := List.mem_iff_getElem?.mp ht
  refine ⟨i, ⟨t, hi, hin⟩, ?_⟩
  rintro k ⟨u, hk, hu⟩
  obtain ⟨hi', rfl⟩ := List.getElem?_eq_some_iff.mp hi
  obtain ⟨hk', rfl⟩ := List.getElem?_eq_some_iff.mp hk
  rw [List.pairwise_iff_getElem] at hpairwise
  -- the earlier of two tokens ends before the later one
  rcases Nat.lt_trichotomy k i with hlt | heq | hlt
  · have := hpairwise k i hk' hi' hlt
    omega
  · exact heq
  · have := hpairwise i k hi' hk' hlt
    omega

theorem recorded_sublist (tokens : List (Nat × List UInt8)) : (recorded 0 tokens).Sublist tokens :=
  (List.take_sublist _ _).trans List.filter_sublist

theorem length_recorded_le (tokens : List (Nat × List UInt8)) :
    (recorded 0 tokens).length ≤ shellMaxArgs := by
  rw [recorded, List.length_take]
  exact Nat.min_le_left _ _

theorem ne_nil_of_mem_recorded {t : Nat × List UInt8} (ht : t ∈ recorded 0 tokens) : t.2 ≠ [] := by
  simpa using (List.mem_filter.mp (List.mem_of_mem_take ht)).2

theorem mem_recorded {t : Nat × List UInt8} (hfew : (recorded 0 tokens).length < shellMaxArgs)
    (ht : t ∈ tokens) (hne : t.2 ≠ []) : t ∈ recorded 0 tokens := by
  have hall : recorded 0 tokens = tokens.filter fun t => t.2 ≠ [] := by
    apply List.take_of_length_le
    rw [recorded, List.length_take] at hfew
    omega
  rw [hall]
  exact List.mem_filter.mpr ⟨ht, by simpa using hne⟩

theorem Tokens.prefix_drop_spaces {lead : Nat} (h : Tokens lead rest tokens) :
    ∀ t ∈ tokens, t.2 <+: (List.replicate lead space ++ rest).drop t.1 := by
  intro t ht
  have hplace := h.within t ht
  rw [List.drop_append, List.drop_of_length_le (by rw [List.length_replicate]; exact hplace.1),
    List.nil_append, List.length_replicate]
  exact h.prefix_drop t ht

theorem Tokens.exists_token {lead j : Nat} (h : Tokens lead rest tokens)
    (hj : (roles .between (List.replicate lead space ++ rest))[j]? = some .argument) :
    ∃ t ∈ tokens, t.1 ≤ j ∧ j < t.1 + t.2.length := by
  rw [roles_spaces] at hj
  have hlead : lead ≤ j := by
    by_contra hlt
    rw [List.getElem?_append_left (by rw [List.length_replicate]; omega),
      List.getElem?_replicate_of_lt (by omega)] at hj
    exact absurd hj (by decide)
  have hplace : lead + (j - lead) = j := by omega
  rwa [List.getElem?_append_right (by rwa [List.length_replicate]), List.length_replicate,
    h.role_iff, hplace] at hj

end Roles

/-- Every command of less than 256 characters is parsed, with stores to the parse buffer and to
the eight entries of `argv` only, into arguments that are parts of it in order.  Unless there
are eight of them, no character of an argument is lost. -/
theorem parse_loses_nothing {text : List UInt8} (hshort : text.length < 256) {m : Mem}
    {parseBuffer input : Nat} (argv : Nat → Nat) (hinput : CStr m input text)
    (hapart : input + text.length < parseBuffer ∨ parseBuffer + shellBufferSize ≤ input) :
    ∃ (st : Parsed) (stores : List Store) (tokens : List (Nat × List UInt8)),
      Returns (fun fuel => shellParseCommand fuel m parseBuffer input argv) st ∧
      Returns (fun fuel => shellParseCommandStores fuel m parseBuffer input argv) stores ∧
      (∀ w ∈ stores, w.Within parseBuffer (parseBuffer + shellBufferSize)) ∧
      (∀ i ≥ 8, st.argv i = argv i) ∧
      (∀ x ∉ Ico parseBuffer (parseBuffer + shellBufferSize), st.mem x = m x) ∧
      st.argc = tokens.length ∧ st.argc ≤ 8 ∧
      (∀ i t, tokens[i]? = some t →
        st.argv i = parseBuffer + t.1 ∧ t.2 ≠ [] ∧ t.1 + t.2.length < shellBufferSize ∧
          CStr st.mem (st.argv i) t.2 ∧ t.2 <+: text.drop t.1) ∧
      tokens.Pairwise (fun s t => s.1 + s.2.length < t.1) ∧
      (st.argc < 8 → ∀ j, (roles .between text)[j]? = some .argument →
        ∃! i : Nat, ∃ t, tokens[i]? = some t ∧ t.1 ≤ j ∧ j < t.1 + t.2.length) := by
  obtain ⟨lead, rest, rfl, hhead⟩ := exists_spaces text
  obtain ⟨tokens, htokens⟩ := exists_tokens lead rest hhead
  rw [List.length_append, List.length_replicate] at hshort hapart
  obtain ⟨st, stores, hret, hstores, hwithin, hrecovers, hslots, hstarts⟩ :=
    htokens.returns_shellParseCommand hhead hshort argv hinput hapart
  have hsub := recorded_sublist tokens
  have hpairwise := htokens.pairwise.sublist hsub
  have hcount : st.argc = (recorded 0 tokens).length := by
    rw [hrecovers.count, List.length_map, Nat.zero_add]
  refine ⟨st, stores, recorded 0 tokens, hret, hstores, hwithin, hslots, hrecovers.frame, hcount,
    hcount ▸ length_recorded_le tokens, fun i t ht => ?_, hpairwise, fun hfew j hj => ?_⟩
  · have hmem := List.mem_of_getElem? ht
    have hplace := htokens.within t (hsub.subset hmem)
    have hstart := hstarts i t ht
    have hfound := hrecovers.found i t.2 (by rw [List.getElem?_map, ht, Option.map_some])
    rw [Nat.zero_add] at hstart hfound
    have hsize : shellBufferSize = 256 := rfl
    exact ⟨hstart, ne_nil_of_mem_recorded hmem, by omega, hfound,
      htokens.prefix_drop_spaces t (hsub.subset hmem)⟩
  · obtain ⟨t, ht, hin⟩ := htokens.exists_token hj
    have hne : t.2 ≠ [] := by
      intro hempty
      rw [hempty, List.length_nil] at hin
      omega
    exact exists_unique_token hpairwise ⟨t, mem_recorded (hcount ▸ hfew) ht hne, hin⟩

/-- The text `""a"b c`, with an empty argument and a quote inside another. -/
theorem parse_loses_nothing_quotes :
    ∃ (st : Parsed) (tokens : List (Nat × List UInt8)),
      Returns (fun fuel => shellParseCommand fuel
        (fun x => [34, 34, 97, 34, 98, 32, 99].getD x 0) 4096 0 fun _ => 0) st ∧
      st.argc = tokens.length ∧
      (st.argc < 8 → ∃! i : Nat, ∃ t, tokens[i]? = some t ∧ t.1 ≤ 3 ∧ 3 < t.1 + t.2.length) := by
  have hinput : CStr (fun x => [34, 34, 97, 34, 98, 32, 99].getD x 0) 0
      [34, 34, 97, 34, 98, 32, 99] := by
    refine ⟨?_, rfl, by decide⟩
    simp [Spells]
  obtain ⟨st, -, tokens, hret, -, -, -, -, hcount, -, -, -, hlost⟩ :=
    parse_loses_nothing (by decide) (fun _ => 0) hinput (.inl (show 0 + 7 < 4096 by decide))
  exact ⟨st, tokens, hret, hcount, fun hfew => hlost hfew 3 (by decide)⟩

end AlvOS.Shell
