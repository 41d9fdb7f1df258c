import AlvOS.Lib.ByteMemory
import AlvOS.Lib.Fuel

/-! Strings in memory: which bytes a place spells, null-terminated strings, and the
pointer loops that scan, copy and compare them. -/

namespace ByteMemory
open Function Set Fuel

/-! ## Spelled bytes -/

/-- The bytes from `p` on are `cs`. -/
def Spells (m : Mem) : Nat → List UInt8 → Prop
  | _, [] => True
  | p, c :: cs => m p = c ∧ Spells m (p + 1) cs

section Spells
variable {m m' : Mem} {p : Nat} {c : UInt8} {cs ds : List UInt8}

theorem spells_append :
    Spells m p (cs ++ ds) ↔ Spells m p cs ∧ Spells m (p + cs.length) ds := by
  induction cs generalizing p with
  | nil => simp [Spells]
  | cons c cs ih =>
    have hnext : p + 1 + cs.length = p + (cs.length + 1) := by omega
    rw [List.cons_append, Spells, Spells, ih, List.length_cons, hnext, and_assoc]

theorem Spells.congr (h : Spells m p cs) (heq : EqOn m' m (Ico p (p + cs.length))) :
    Spells m' p cs := by
  induction cs generalizing p with
  | nil => trivial
  | cons c cs ih =>
    rw [List.length_cons] at heq
    refine ⟨(heq ⟨le_refl p, by omega⟩).trans h.1, ih h.2 fun x hx => heq ⟨?_, ?_⟩⟩
    · have := hx.1
      omega
    · have := hx.2
      omega

theorem Spells.map_range (h : Spells m p cs) :
    (List.range cs.length).map (fun i => m (p + i)) = cs := by
  induction cs generalizing p with
  | nil => rfl
  | cons c cs ih =>
    rw [List.length_cons, List.range_succ_eq_map, List.map_cons, List.map_map, Nat.add_zero, h.1]
    refine congrArg (c :: ·) (Eq.trans (List.map_congr_left fun i _ => ?_) (ih h.2))
    exact congrArg m (by omega)

/-- A null-terminated string: the bytes `cs`, none of them null, and a null byte after them. -/
structure CStr (m : Mem) (p : Nat) (cs : List UInt8) : Prop where
  spells : Spells m p cs
  stop : m (p + cs.length) = 0
  inner : 0 ∉ cs

theorem CStr.congr (h : CStr m p cs) (heq : EqOn m' m (Icc p (p + cs.length))) :
    CStr m' p cs := by
  refine ⟨h.spells.congr (heq.mono Ico_subset_Icc_self), ?_, h.inner⟩
  rw [heq ⟨Nat.le_add_right _ _, le_refl _⟩]
  exact h.stop

theorem CStr.frame {lo hi : Nat} (h : CStr m p cs) (heq : EqOn m' m (Ico lo hi)ᶜ)
    (hapart : p + cs.length < lo ∨ hi ≤ p) : CStr m' p cs := by
  refine h.congr (heq.mono ?_)
  rintro x ⟨hlo, hhi⟩ ⟨hlo', hhi'⟩
  omega

theorem CStr.move {q : Nat} (h : CStr m p cs)
    (heq : ∀ i ≤ cs.length, m' (q + i) = m (p + i)) : CStr m' q cs := by
  refine ⟨?_, (heq _ (le_refl _)).trans h.stop, h.inner⟩
  have hspells := h.spells
  clear h
  induction cs generalizing p q with
  | nil => trivial
  | cons c cs ih =>
    refine ⟨(heq 0 (Nat.zero_le _)).trans hspells.1, ih (fun i hi => ?_) hspells.2⟩
    have hnext := heq (i + 1) (by rw [List.length_cons]; omega)
    rwa [Nat.add_comm i 1, ← Nat.add_assoc, ← Nat.add_assoc] at hnext

theorem CStr.of_getD (h : ∀ i ≤ cs.length, m (p + i) = cs.getD i 0) (hinner : 0 ∉ cs) :
    CStr m p cs := by
  refine ⟨?_, ?_, hinner⟩
  · clear hinner
    induction cs generalizing p with
    | nil => trivial
    | cons c cs ih =>
      refine ⟨h 0 (Nat.zero_le _), ih fun i hi => ?_⟩
      have hnext := h (i + 1) (Nat.succ_le_succ hi)
      rwa [Nat.add_comm i 1, ← Nat.add_assoc, Nat.add_comm 1 i, List.getD_cons_succ] at hnext
  · rw [h _ (le_refl _), List.getD_eq_getElem?_getD, List.getElem?_eq_none (le_refl _)]
    rfl

theorem CStr.tail (h : CStr m p (cs ++ ds)) : CStr m (p + cs.length) ds := by
  refine ⟨(spells_append.mp h.spells).2, ?_, fun h0 => h.inner (by simp [h0])⟩
  rw [Nat.add_assoc, ← List.length_append]
  exact h.stop

theorem CStr.next (h : CStr m p (c :: cs)) : CStr m (p + 1) cs := by
  have hsplit : CStr m p ([c] ++ cs) := h
  exact hsplit.tail

theorem CStr.dropLast (h : CStr m p cs) (hne : cs ≠ []) :
    CStr (update m (p + (cs.length - 1)) 0) p cs.dropLast := by
  have hspells := h.spells
  rw [← List.dropLast_concat_getLast hne, spells_append] at hspells
  refine ⟨hspells.1.congr fun x hx => update_of_ne ?_ _ _, ?_, fun h0 =>
    h.inner (List.dropLast_subset _ h0)⟩
  · have hlt := hx.2
    rw [List.length_dropLast] at hlt
    omega
  · rw [List.length_dropLast]
    exact update_self _ _ _

theorem CStr.concat (h : CStr m p cs) (hc : c ≠ 0) :
    CStr (update (update m (p + cs.length) c) (p + cs.length + 1) 0) p (cs ++ [c]) := by
  refine ⟨spells_append.mpr ⟨h.spells.congr fun x hx => ?_, ?_, trivial⟩, ?_, ?_⟩
  · have hlt := hx.2
    rw [update_of_ne (by omega), update_of_ne (by omega)]
  · rw [update_of_ne (by omega), update_self]
  · rw [List.length_append, List.length_singleton, ← Nat.add_assoc, update_self]
  · rw [List.mem_append, List.mem_singleton]
    exact not_or.mpr ⟨h.inner, hc.symm⟩

theorem CStr.head (h : CStr m p cs) : m p = cs.headD 0 := by
  cases cs with
  | nil => exact h.stop
  | cons c cs => exact h.spells.1

theorem CStr.advance (h : CStr m p cs) (hne : m p ≠ 0) : CStr m (p + 1) cs.tail := by
  cases cs with
  | nil => exact absurd h.stop hne
  | cons c cs => exact h.next

theorem CStr.end_advance (h : CStr m p cs) (hne : m p ≠ 0) :
    p + 1 + cs.tail.length = p + cs.length := by
  cases cs with
  | nil => exact absurd h.stop hne
  | cons c cs => rw [List.tail_cons, List.length_cons, Nat.add_assoc, Nat.add_comm 1]

end Spells

/-! ## Scanning -/

/-- `while (go(*p)) p++`. -/
def scanWhile (go : UInt8 → Bool) : Nat → Mem → Nat → Option Nat
  | 0, _, _ => none
  | fuel + 1, m, p => if go (m p) then scanWhile go fuel m (p + 1) else some p

theorem scanWhile_mono (go : UInt8 → Bool) (m : Mem) (p : Nat) :
    Mono fun fuel => scanWhile go fuel m p := by
  refine .loop (f := fun fuel p => scanWhile go fuel m p) (fun _ => rfl) (fun p => ?_) p
  simp only [scanWhile]
  split_ifs
  · exact .inl ⟨p + 1, fun _ => rfl⟩
  · exact .inr ⟨some p, fun _ => rfl⟩

/-- The loop passes over the bytes it goes on at, and stops at the first other one. -/
theorem returns_scanWhile (go : UInt8 → Bool) {m : Mem} {p : Nat} {cs : List UInt8}
    (h : Spells m p cs) (hgo : ∀ c ∈ cs, go c = true) (hstop : go (m (p + cs.length)) = false) :
    Returns (fun fuel => scanWhile go fuel m p) (p + cs.length) := by
  refine ⟨cs.length + 1, ?_⟩
  induction cs generalizing p with
  | nil => exact if_neg (by simpa using hstop)
  | cons c cs ih =>
    have hnext : p + (c :: cs).length = p + 1 + cs.length := by
      rw [List.length_cons]
      omega
    rw [hnext] at hstop ⊢
    have hc : go (m p) = true := by
      rw [h.1]
      exact hgo c (by simp)
    exact (if_pos hc).trans (ih h.2 (fun d hd => hgo d (by simp [hd])) hstop)

/-! ## Copying -/

theorem CStr.next_update {m : Mem} {src dest : Nat} {c : UInt8} {cs : List UInt8}
    (h : CStr m src (c :: cs)) (v : UInt8)
    (hapart : src + (cs.length + 1) < dest ∨ dest + (cs.length + 1) < src) :
    CStr (update m dest v) (src + 1) cs := by
  refine h.next.congr fun x hx => update_of_ne ?_ _ _
  have h1 := hx.1; have h2 := hx.2
  omega

/-- `while ((*dest++ = *src++))`. -/
def copyString : Nat → Mem → Nat → Nat → Option Mem
  | 0, _, _, _ => none
  | fuel + 1, m, dest, src =>
    let m := update m dest (m src)
    if m dest ≠ 0 then copyString fuel m (dest + 1) (src + 1) else some m

theorem copyString_mono (m : Mem) (dest src : Nat) :
    Mono fun fuel => copyString fuel m dest src := by
  refine .loop (f := fun fuel (s : Mem × Nat × Nat) => copyString fuel s.1 s.2.1 s.2.2)
    (fun _ => rfl) (fun (m, dest, src) => ?_) (m, dest, src)
  simp only [copyString]
  split_ifs
  · exact .inl ⟨(_, dest + 1, src + 1), fun _ => rfl⟩
  · exact .inr ⟨some _, fun _ => rfl⟩

theorem returns_copyString {m : Mem} {src : Nat} {cs : List UInt8} (dest : Nat)
    (h : CStr m src cs) (hapart : src + cs.length < dest ∨ dest + cs.length < src) :
    ∃ m', Returns (fun fuel => copyString fuel m dest src) m' ∧ CStr m' dest cs ∧
      EqOn m' m (Icc dest (dest + cs.length))ᶜ := by
  induction cs generalizing m dest src with
  | nil =>
    have hnull : m src = 0 := h.stop
    refine ⟨update m dest (m src), ⟨1, if_neg (by simp [hnull])⟩, ⟨trivial, ?_, by simp⟩, ?_⟩
    · simpa using hnull
    · intro x hx
      exact update_of_ne (fun heq => hx (by simp [heq])) _ _
  | cons c cs ih =>
    rw [List.length_cons] at hapart
    have hc : m src = c := h.spells.1
    have hne : c ≠ 0 := fun h0 => h.inner (by simp [h0])
    have hrest := h.next_update (m src) hapart
    obtain ⟨m', ⟨fuel, hrun⟩, hcopied, heq⟩ :=
      ih (dest + 1) hrest (hapart.imp (by omega) (by omega))
    have hend : dest + (c :: cs).length = dest + 1 + cs.length := by
      rw [List.length_cons]
      omega
    refine ⟨m', ⟨fuel + 1, (if_pos (by simp [hc, hne])).trans hrun⟩, ⟨⟨?_, hcopied.spells⟩, ?_, ?_⟩,
      fun x hx => ?_⟩
    · rw [heq fun hx => absurd hx.1 (by omega), update_self, hc]
    · rw [hend]
      exact hcopied.stop
    · exact h.inner
    · rw [hend] at hx
      rw [heq fun hx' => hx ⟨by have := hx'.1; omega, hx'.2⟩]
      exact update_of_ne (fun hxd => hx ⟨by omega, by omega⟩) _ _

def copyStores : Nat → Mem → Nat → Nat → Option (List Nat)
  | 0, _, _, _ => none
  | fuel + 1, m, dest, src =>
    let m := update m dest (m src)
    if m dest ≠ 0 then (copyStores fuel m (dest + 1) (src + 1)).map (dest :: ·) else some [dest]

theorem copyStores_mono (m : Mem) (dest src : Nat) :
    Mono fun fuel => copyStores fuel m dest src := by
  refine .of_succ fun fuel r h => ?_
  induction fuel generalizing m dest src r with
  | zero => exact absurd h (by simp [copyStores])
  | succ fuel ih =>
    rw [copyStores] at h ⊢
    split_ifs at h ⊢ with hgo
    · obtain ⟨stores, hrest, rfl⟩ := Option.map_eq_some_iff.mp h
      exact Option.map_eq_some_iff.mpr ⟨stores, ih _ _ _ _ hrest, rfl⟩
    · exact h

theorem returns_copyStores {m : Mem} {src : Nat} {cs : List UInt8} (dest : Nat)
    (h : CStr m src cs) (hapart : src + cs.length < dest ∨ dest + cs.length < src) :
    Returns (fun fuel => copyStores fuel m dest src) (List.range' dest (cs.length + 1)) := by
  induction cs generalizing m dest src with
  | nil =>
    have hnull : m src = 0 := h.stop
    exact ⟨1, if_neg (by simp [hnull])⟩
  | cons c cs ih =>
    rw [List.length_cons] at hapart ⊢
    have hne : m src ≠ 0 := by
      rw [h.spells.1]
      exact fun h0 => h.inner (by simp [h0])
    have hrest := h.next_update (m src) hapart
    obtain ⟨fuel, hrun⟩ := ih (dest + 1) hrest (hapart.imp (by omega) (by omega))
    exact ⟨fuel + 1, (if_pos (by simp [hne])).trans (Option.map_eq_some_iff.mpr ⟨_, hrun, rfl⟩)⟩

/-! ## Comparing -/

/-- The sign of `r` says how `a` compares with `b`. -/
structure Compares {α : Type*} [LT α] (r : Int) (a b : α) : Prop where
  lt : r < 0 ↔ a < b
  eq : r = 0 ↔ a = b
  gt : 0 < r ↔ b < a

namespace Compares
variable {α : Type*} [LT α] {r s t : Int} {a b c : α}

theorem trans [LE α] [Std.IsLinearOrder α] [Std.LawfulOrderLT α] (h : Compares r a b)
    (h' : Compares s b c) (h'' : Compares t a c) (hr : r ≤ 0) (hs : s ≤ 0) : t ≤ 0 := by
  have hab : a ≤ b := Std.not_lt.mp fun hlt => absurd (h.gt.mpr hlt) (by omega)
  have hbc : b ≤ c := Std.not_lt.mp fun hlt => absurd (h'.gt.mpr hlt) (by omega)
  by_contra hpos
  exact Std.not_lt.mpr (Std.le_trans hab hbc) (h''.gt.mp (by omega))

end Compares

/-- `while (*p && *p == *q) { p++; q++; }`, and then the difference of the two bytes. -/
def compareStrings : Nat → Mem → Nat → Nat → Option Int
  | 0, _, _, _ => none
  | fuel + 1, m, p, q =>
    if m p ≠ 0 ∧ m p = m q then compareStrings fuel m (p + 1) (q + 1)
    else some ((m p).toNat - (m q).toNat)

theorem compareStrings_mono (m : Mem) (p q : Nat) :
    Mono fun fuel => compareStrings fuel m p q := by
  refine .loop (f := fun fuel (s : Nat × Nat) => compareStrings fuel m s.1 s.2)
    (fun _ => rfl) (fun (p, q) => ?_) (p, q)
  simp only [compareStrings]
  split_ifs
  · exact .inl ⟨(p + 1, q + 1), fun _ => rfl⟩
  · exact .inr ⟨some _, fun _ => rfl⟩

/-- Where two strings first differ, a string that has ended counting as a null byte. -/
def difference : List UInt8 → List UInt8 → Int
  | [], [] => 0
  | c :: _, [] => c.toNat
  | [], d :: _ => -d.toNat
  | c :: cs, d :: ds => if c = d then difference cs ds else c.toNat - d.toNat

/-- `while (n && *p && *p == *q) { p++; q++; n--; }`, and then, unless the count has run out,
the difference of the two bytes. -/
def compareFirst (m : Mem) (p q : Nat) : Nat → Int
  | 0 => 0
  | n + 1 =>
    if m p ≠ 0 ∧ m p = m q then compareFirst m (p + 1) (q + 1) n
    else (m p).toNat - (m q).toNat

section Difference
variable {m : Mem} {p q : Nat} {cs ds : List UInt8}

theorem difference_turn (hcs : 0 ∉ cs) (hds : 0 ∉ ds) :
    difference cs ds = if cs.headD 0 ≠ 0 ∧ cs.headD 0 = ds.headD 0 then difference cs.tail ds.tail
      else (cs.headD 0).toNat - (ds.headD 0).toNat := by
  cases cs with
  | nil => cases ds <;> simp [difference]
  | cons c cs =>
    have hc : c ≠ 0 := fun h0 => hcs (by simp [h0])
    cases ds with
    | nil => simp [difference, hc]
    | cons d ds => simp [difference, hc]

/-- The induction along the loops: they stop, or go on in the rest of both strings. -/
@[elab_as_elim]
theorem CStr.compare_induction
    {motive : ∀ {p q : Nat} {cs ds : List UInt8}, CStr m p cs → CStr m q ds → Prop}
    (stop : ∀ {p q cs ds} (h : CStr m p cs) (h' : CStr m q ds), ¬(m p ≠ 0 ∧ m p = m q) →
      motive h h')
    (turn : ∀ {p q cs ds} (h : CStr m p cs) (h' : CStr m q ds) (hp : m p ≠ 0) (hq : m q ≠ 0),
      m p = m q → motive (h.advance hp) (h'.advance hq) → motive h h')
    (h : CStr m p cs) (h' : CStr m q ds) : motive h h' := by
  induction cs generalizing p q ds with
  | nil => exact stop h h' fun hgo => hgo.1 h.stop
  | cons c cs ih =>
    by_cases hgo : m p ≠ 0 ∧ m p = m q
    · have hq : m q ≠ 0 := hgo.2 ▸ hgo.1
      exact turn h h' hgo.1 hq hgo.2 (ih h.next (h'.advance hq))
    · exact stop h h' hgo

theorem returns_compareStrings (h : CStr m p cs) (h' : CStr m q ds) :
    Returns (fun fuel => compareStrings fuel m p q) (difference cs ds) := by
  induction h, h' using CStr.compare_induction with
  | stop h h' hgo =>
    rw [difference_turn h.inner h'.inner, ← h.head, ← h'.head, if_neg hgo]
    exact ⟨1, if_neg hgo⟩
  | turn h h' hp hq heq ih =>
    obtain ⟨fuel, hrun⟩ := ih
    rw [difference_turn h.inner h'.inner, ← h.head, ← h'.head, if_pos ⟨hp, heq⟩]
    exact ⟨fuel + 1, (if_pos ⟨hp, heq⟩).trans hrun⟩

theorem compareFirst_eq (h : CStr m p cs) (h' : CStr m q ds) (n : Nat) :
    compareFirst m p q n = difference (cs.take n) (ds.take n) := by
  have hhead (cs : List UInt8) (n : Nat) : (cs.take (n + 1)).headD 0 = cs.headD 0 := by
    cases cs <;> rfl
  have htail (cs : List UInt8) (n : Nat) : (cs.take (n + 1)).tail = cs.tail.take n := by
    cases cs <;> simp
  induction n generalizing p q cs ds with
  | zero => rfl
  | succ n ih =>
    have hinner := fun h0 => h.inner (List.mem_of_mem_take (i := n + 1) h0)
    have hinner' := fun h0 => h'.inner (List.mem_of_mem_take (i := n + 1) h0)
    rw [compareFirst, difference_turn hinner hinner', hhead, hhead, htail, htail, ← h.head,
      ← h'.head]
    split_ifs with hgo
    · exact ih (h.advance hgo.1) (h'.advance (hgo.2 ▸ hgo.1))
    · rfl

theorem difference_swap (cs ds : List UInt8) : difference ds cs = -difference cs ds := by
  induction cs generalizing ds with
  | nil => cases ds <;> simp [difference]
  | cons c cs ih =>
    cases ds with
    | nil => rfl
    | cons d ds =>
      rw [difference, difference, ih]
      by_cases hsame : c = d
      · rw [if_pos hsame, if_pos hsame.symm]
      · rw [if_neg hsame, if_neg (Ne.symm hsame)]
        omega

theorem difference_neg_iff (hcs : 0 ∉ cs) (hds : 0 ∉ ds) : difference cs ds < 0 ↔ cs < ds := by
  induction cs generalizing ds with
  | nil =>
    cases ds with
    | nil => simp [difference]
    | cons d ds =>
      have hd : d.toNat ≠ 0 := fun h => hds (List.mem_cons.mpr (.inl (UInt8.toNat_inj.mp h.symm)))
      exact iff_of_true (by rw [difference]; omega) (List.nil_lt_cons d ds)
  | cons c cs ih =>
    cases ds with
    | nil => exact iff_of_false (by rw [difference]; omega) (List.not_lt_nil _)
    | cons d ds =>
      rw [difference, List.cons_lt_cons_iff, UInt8.lt_iff_toNat_lt]
      by_cases hsame : c = d
      · subst hsame
        simpa using ih (fun h0 => hcs (by simp [h0])) (fun h0 => hds (by simp [h0]))
      · rw [if_neg hsame]
        simp only [hsame, false_and, or_false]
        omega

theorem difference_eq_zero_iff (hcs : 0 ∉ cs) (hds : 0 ∉ ds) :
    difference cs ds = 0 ↔ cs = ds := by
  have hlt := difference_neg_iff hcs hds
  have hgt := difference_neg_iff hds hcs
  rw [difference_swap cs ds] at hgt
  constructor
  · intro h
    exact List.le_antisymm (fun h' => by have := hgt.mpr h'; omega)
      (fun h' => by have := hlt.mpr h'; omega)
  · rintro rfl
    have hirrefl : ¬difference cs cs < 0 := fun h => List.lt_irrefl cs (hlt.mp h)
    have := difference_swap cs cs
    omega

theorem compares_difference (hcs : 0 ∉ cs) (hds : 0 ∉ ds) : Compares (difference cs ds) cs ds := by
  refine ⟨difference_neg_iff hcs hds, difference_eq_zero_iff hcs hds, ?_⟩
  rw [← difference_neg_iff hds hcs, difference_swap cs ds]
  omega

theorem prefix_iff_difference (hcs : 0 ∉ cs) (hds : 0 ∉ ds) :
    difference cs (ds.take cs.length) = 0 ↔ cs <+: ds := by
  rw [difference_eq_zero_iff hcs fun h0 => hds (List.mem_of_mem_take h0), List.prefix_iff_eq_take]

end Difference

/-! ### What is read

Each turn of the loops looks at one byte of either string. -/

def compareReads : Nat → Mem → Nat → Nat → Option (List (Nat × Nat))
  | 0, _, _, _ => none
  | fuel + 1, m, p, q =>
    if m p ≠ 0 ∧ m p = m q then (compareReads fuel m (p + 1) (q + 1)).map ((p, q) :: ·)
    else some [(p, q)]

def compareFirstReads (m : Mem) (p q : Nat) : Nat → List (Nat × Nat)
  | 0 => []
  | n + 1 =>
    (p, q) :: if m p ≠ 0 ∧ m p = m q then compareFirstReads m (p + 1) (q + 1) n else []

section Reads
variable {m : Mem} {p q : Nat} {cs ds : List UInt8}

theorem returns_compareReads (h : CStr m p cs) (h' : CStr m q ds) :
    ∃ reads, Returns (fun fuel => compareReads fuel m p q) reads ∧
      ∀ r ∈ reads, r.1 ≤ p + cs.length ∧ r.2 ≤ q + ds.length := by
  induction h, h' using CStr.compare_induction with
  | stop h h' hgo => exact ⟨[_], ⟨1, if_neg hgo⟩, by simp⟩
  | turn h h' hp hq heq ih =>
    obtain ⟨reads, hrun, hwithin⟩ := ih
    rw [h.end_advance hp, h'.end_advance hq] at hwithin
    obtain ⟨fuel, hrun⟩ := hrun.map (_ :: ·)
    refine ⟨_ :: reads, ⟨fuel + 1, (if_pos ⟨hp, heq⟩).trans hrun⟩, ?_⟩
    exact List.forall_mem_cons.mpr ⟨by simp, hwithin⟩

theorem compareFirstReads_within (h : CStr m p cs) (h' : CStr m q ds) (n : Nat) :
    ∀ r ∈ compareFirstReads m p q n, r.1 ≤ p + cs.length ∧ r.2 ≤ q + ds.length := by
  induction n generalizing p q cs ds with
  | zero => exact List.forall_mem_nil _
  | succ n ih =>
    rw [compareFirstReads, List.forall_mem_cons]
    refine ⟨by simp, ?_⟩
    split_ifs with hgo
    · have hwithin := ih (h.advance hgo.1) (h'.advance (hgo.2 ▸ hgo.1))
      rwa [h.end_advance hgo.1, h'.end_advance (hgo.2 ▸ hgo.1)] at hwithin
    · exact List.forall_mem_nil _

end Reads

end ByteMemory
