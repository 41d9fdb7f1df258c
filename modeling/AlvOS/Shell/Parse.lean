import AlvOS.Shell.Tokens

/-! Written arguments.  Every way of writing a list of arguments is parsed back to that
list. -/

namespace AlvOS.Shell
open ByteMemory CString Fuel Set Terminal

inductive Writes (arg : List UInt8) : List UInt8 → Prop
  | quoted : Writes arg (quote :: (arg ++ [quote]))
  | bare (_ : space ∉ arg) : Writes arg arg

/-- Arguments as text from the first of them on, with spaces between and any number at
the end. -/
inductive Form : List (List UInt8) → List UInt8 → Prop
  | nil : Form [] []
  | cons {arg written rest : List UInt8} {args : List (List UInt8)} (gap : Nat)
      (_ : Writes arg written) (_ : args ≠ [] → 0 < gap) (_ : Form args rest) :
      Form (arg :: args) (written ++ (List.replicate gap space ++ rest))

def Line (args : List (List UInt8)) (text : List UInt8) : Prop :=
  ∃ lead rest, text = List.replicate lead space ++ rest ∧ Form args rest

/-- Not empty, without null bytes and without quotes. -/
structure Plain (arg : List UInt8) : Prop where
  ne_nil : arg ≠ []
  no_null : 0 ∉ arg
  no_quote : quote ∉ arg

section Line
variable {p gap : Nat} {arg written text rest : List UInt8} {args : List (List UInt8)}

theorem Writes.exists_cons (hplain : Plain arg) (h : Writes arg written) :
    ∃ c cs, written = c :: cs ∧ c ≠ space := by
  cases h with
  | quoted => exact ⟨quote, _, rfl, by decide⟩
  | bare hspace =>
    obtain ⟨c, cs, rfl⟩ := List.exists_cons_of_ne_nil hplain.ne_nil
    exact ⟨c, cs, rfl, fun heq => hspace (by simp [heq])⟩

theorem Form.head_ne_space (hplain : ∀ a ∈ args, Plain a) (h : Form args rest) :
    ∀ c ∈ rest.head?, c ≠ space := by
  cases h with
  | nil => simp
  | cons _ hw _ _ =>
    obtain ⟨c, cs, rfl, hc⟩ := hw.exists_cons (hplain _ (by simp))
    simpa using hc

theorem Writes.first (hplain : Plain arg) (hw : Writes arg written) (hgap : gap = 0 → rest = []) :
    ∃ offset left, First (written ++ (List.replicate gap space ++ rest)) offset arg left rest := by
  have hhead : arg.head? ≠ some quote := fun h => hplain.no_quote (List.mem_of_head? h)
  cases hw with
  | quoted =>
    have htext : (quote :: (arg ++ [quote])) ++ (List.replicate gap space ++ rest) =
        quote :: (arg ++ quote :: (List.replicate gap space ++ rest)) := by simp
    exact ⟨1, gap, htext ▸ .quoted gap hplain.no_quote⟩
  | bare hspace =>
    cases gap with
    | zero =>
      obtain rfl := hgap rfl
      rw [List.replicate_zero, List.append_nil, List.append_nil]
      exact ⟨0, 0, .last hplain.ne_nil hhead hspace⟩
    | succ gap => exact ⟨0, gap, .bare gap hplain.ne_nil hhead hspace⟩

theorem Form.tokens (hform : Form args text) (hplain : ∀ a ∈ args, Plain a) (p : Nat) :
    ∃ tokens, Tokens p text tokens ∧ tokens.map Prod.snd = args := by
  induction hform generalizing p with
  | nil => exact ⟨[], .nil p, rfl⟩
  | @cons arg written rest args gap hw hgap hform ih =>
    have hargs : ∀ a ∈ args, Plain a := fun a ha => hplain a (by simp [ha])
    have hend : gap = 0 → rest = [] := by
      intro h0
      cases hform with
      | nil => rfl
      | cons => exact absurd (hgap (by simp)) (by omega)
    obtain ⟨offset, left, hfirst⟩ := hw.first (hplain arg (by simp)) hend
    obtain ⟨tokens, htokens, hmap⟩ := ih hargs
      (p + ((written ++ (List.replicate gap space ++ rest)).length - rest.length))
    exact ⟨_, .cons hfirst (hform.head_ne_space hargs) htokens, by rw [List.map_cons, hmap]⟩

theorem recorded_plain {tokens : List (Nat × List UInt8)} (hmap : tokens.map Prod.snd = args)
    (hplain : ∀ a ∈ args, Plain a) (hroom : args.length ≤ 8) : recorded 0 tokens = tokens := by
  have hkeep : ∀ t ∈ tokens, decide (t.2 ≠ []) = true := by
    intro t ht
    rw [decide_eq_true_eq]
    refine (hplain t.2 ?_).ne_nil
    rw [← hmap]
    exact List.mem_map_of_mem ht
  have hlength : tokens.length ≤ shellMaxArgs - 0 := by
    rw [← hmap, List.length_map] at hroom
    exact hroom
  rw [recorded, List.filter_eq_self.mpr hkeep, List.take_of_length_le hlength]

end Line

/-- Every way of writing one to eight arguments in less than 256 characters is parsed back
to them, and nothing outside the parse buffer is written. -/
theorem parse_recovers {args : List (List UInt8)} (hcount : 1 ≤ args.length ∧ args.length ≤ 8)
    (hplain : ∀ a ∈ args, Plain a) {text : List UInt8} (hline : Line args text)
    (hshort : text.length < 256) {m : Mem} {parseBuffer input : Nat} (argv : Nat → Nat)
    (hinput : CStr m input text)
    (hapart : input + text.length < parseBuffer ∨ parseBuffer + shellBufferSize ≤ input) :
    ∃ st, Returns (fun fuel => shellParseCommand fuel m parseBuffer input argv) st ∧
      st.argc = args.length ∧
      (∀ i a, args[i]? = some a → CStr st.mem (st.argv i) a) ∧
      ∀ x ∉ Ico parseBuffer (parseBuffer + shellBufferSize), st.mem x = m x := by
  obtain ⟨lead, rest, rfl, hform⟩ := hline
  rw [List.length_append, List.length_replicate] at hshort hapart
  obtain ⟨tokens, htokens, hmap⟩ := hform.tokens hplain lead
  obtain ⟨st, -, hret, -, -, hcollects⟩ := htokens.returns_shellParseCommand
    (hform.head_ne_space hplain) hshort argv hinput hapart
  have hrecovers := hcollects.recovers
  rw [recorded_plain hmap hplain hcount.2, hmap] at hrecovers
  refine ⟨st, hret, by rw [hrecovers.count, Nat.zero_add], fun i a ha => ?_, hrecovers.frame⟩
  have hfound := hrecovers.found i a ha
  rwa [Nat.zero_add] at hfound

/-- The text `"a b" c`, with the quoted argument and the bare one. -/
theorem parse_recovers_mixed :
    ∃ st, Returns (fun fuel => shellParseCommand fuel
        (fun x => [34, 97, 32, 98, 34, 32, 99].getD x 0) 4096 0 fun _ => 0) st ∧
      st.argc = 2 ∧ CStr st.mem (st.argv 0) [97, 32, 98] ∧ CStr st.mem (st.argv 1) [99] := by
  have hplain : ∀ a ∈ [[97, 32, 98], [99]], Plain a := by
    rw [List.forall_mem_cons, List.forall_mem_singleton]
    exact ⟨⟨by decide, by decide, by decide⟩, ⟨by decide, by decide, by decide⟩⟩
  have hform : Form [[97, 32, 98], [99]] [34, 97, 32, 98, 34, 32, 99] :=
    .cons 1 .quoted (fun _ => Nat.one_pos)
      (.cons 0 (.bare (by decide)) (fun hne => absurd rfl hne) .nil)
  have hinput : CStr (fun x => [34, 97, 32, 98, 34, 32, 99].getD x 0) 0
      [34, 97, 32, 98, 34, 32, 99] := by
    refine ⟨?_, rfl, by decide⟩
    simp [Spells]
  obtain ⟨st, hret, hargc, hargv, -⟩ := parse_recovers (by decide) hplain ⟨0, _, rfl, hform⟩
    (by decide) (fun _ => 0) hinput (.inl (show 0 + 7 < 4096 by decide))
  exact ⟨st, hret, hargc, hargv 0 _ rfl, hargv 1 _ rfl⟩

end AlvOS.Shell
