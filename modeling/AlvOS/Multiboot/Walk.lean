import Mathlib.Data.Prod.Lex
import AlvOS.Multiboot.Defs

/-! Where the two walks go, and whether they come to an end.  The tags lie one stride
apart from the first to one that is not open; the walks stand still exactly where a
stride or the size of a map entry is zero. -/

namespace AlvOS.Multiboot
open ByteMemory Word Memory Machine

section Walk
variable {m : Mem} {start stop t c i n : Nat} {d : Detection}

/-! ## Strides -/

theorem tagSize_lt (m : Mem) (t : Nat) : tagSize m t < 2 ^ 32 := readLE_lt m (t + 4) 4

theorem tagStride_eq (m : Mem) (t : Nat) : tagStride m t = (tagSize m t + 7) % 2 ^ 32 / 8 * 8 := by
  have hmask : (2 : Nat) ^ 32 - 8 = 2 ^ 32 - 2 ^ 3 := rfl
  rw [tagStride, hmask, and_high_mask _ (by decide), u32, Nat.mod_mod]
  rfl

theorem tagStride_pos_iff : 0 < tagStride m t ↔ 1 ≤ tagSize m t ∧ tagSize m t ≤ 2 ^ 32 - 8 := by
  have hsize := tagSize_lt m t
  rw [tagStride_eq]
  omega

/-! ## The tags of a walk -/

/-- The tags that `debug_multiboot_info` comes to. -/
inductive Chain (m : Mem) (stop start : Nat) : Nat → Prop
  | first : Chain m stop start start
  | next {t : Nat} : Chain m stop start t → TagOpen m stop t → Chain m stop start (t + tagStride m t)

/-- The entry loop at map tag `t` ends after `n` entries. -/
def EntryCount (m : Mem) (t n : Nat) : Prop :=
  tagSize m t ≤ 16 + n * entrySize m t ∧ ∀ i < n, 16 + i * entrySize m t < tagSize m t

/-- The tags that `memory_detect` comes to, with the entries that are recorded before. -/
inductive Visits (m : Mem) (stop start : Nat) : Nat → Nat → Prop
  | first : Visits m stop start start 0
  | other {t c : Nat} : Visits m stop start t c → TagOpen m stop t → tagType m t ≠ tagTypeMmap →
      Visits m stop start (t + tagStride m t) c
  | map {t c n : Nat} : Visits m stop start t c → TagOpen m stop t → tagType m t = tagTypeMmap →
      EntryCount m t n → Visits m stop start (t + tagStride m t) (min memoryMapSize (c + n))

theorem Visits.chain (h : Visits m stop start t c) : Chain m stop start t := by
  induction h with
  | first => exact .first
  | other _ hopen _ ih => exact ih.next hopen
  | map _ hopen _ _ ih => exact ih.next hopen

theorem exists_entryCount (h : 16 < tagSize m t → entrySize m t ≠ 0) : ∃ n, EntryCount m t n := by
  have hends : ∃ n, tagSize m t ≤ 16 + n * entrySize m t := by
    by_cases hsize : 16 < tagSize m t
    · refine ⟨tagSize m t, ?_⟩
      have hle := Nat.le_mul_of_pos_right (tagSize m t) (Nat.pos_of_ne_zero (h hsize))
      omega
    · exact ⟨0, by omega⟩
  -- the least number of entries that come up to the end of the tag
  exact ⟨Nat.find hends, Nat.find_spec hends, fun i hi => Nat.lt_of_not_le (Nat.find_min hends hi)⟩

theorem recordEntry_length (info : MemoryInfo) (e : MemoryMapEntry) :
    (recordEntry info e).entries.length = min memoryMapSize (info.entries.length + 1) := by
  have hle := info.count_le
  by_cases hlt : info.entries.length < memoryMapSize
  · rw [recordEntry, dif_pos hlt, List.length_append, List.length_singleton]
    omega
  · rw [recordEntry, dif_neg hlt]
    omega

/-! ## The states of `memory_detect` -/

@[simp] theorem print_info (d : Detection) (calls : List Print) : (d.print calls).info = d.info := rfl

@[simp] theorem mapEnd_info (d : Detection) : d.mapEnd.info = d.info := by
  rw [Detection.mapEnd]
  split_ifs <;> rfl

theorem otherTag_entries (d : Detection) (m : Mem) (t : Nat) :
    (d.otherTag m t).info.entries = d.info.entries := by
  rw [Detection.otherTag]
  split_ifs <;> rfl

/-- The machine stands before the entry with number `i` of a map tag. -/
structure AtEntry (m : Mem) (stop start t e c i : Nat) : Prop where
  visits : Visits m stop start t c
  isOpen : TagOpen m stop t
  isMap : tagType m t = tagTypeMmap
  pointer : e = t + 16 + i * entrySize m t
  before : ∀ j < i, 16 + j * entrySize m t < tagSize m t

def Detect.Follows (m : Mem) (stop start : Nat) : Detect → Prop
  | .tag t d => Visits m stop start t d.info.entries.length
  | .entry t e d => ∃ c i, AtEntry m stop start t e c i ∧
      d.info.entries.length = min memoryMapSize (c + i)
  | .done _ => True

theorem detectStep_tag_map (hopen : TagOpen m stop t) (hmap : tagType m t = tagTypeMmap) :
    detectStep m stop (.tag t d) =
      some (.entry t (t + 16) (d.print [text "Mapa de memoria detectado:\n"])) := by
  rw [detectStep, if_pos hopen, if_pos hmap]

theorem detectStep_tag_other (hopen : TagOpen m stop t) (hmap : tagType m t ≠ tagTypeMmap) :
    detectStep m stop (.tag t d) = some (.tag (t + tagStride m t) (d.otherTag m t)) := by
  rw [detectStep, if_pos hopen, if_neg hmap]

theorem detectStep_tag_closed (hopen : ¬TagOpen m stop t) :
    detectStep m stop (.tag t d) = some (.done d.finish) := by
  rw [detectStep, if_neg hopen]

theorem detectStep_entry {e : Nat} (he : e < t + tagSize m t) :
    detectStep m stop (.entry t e d) =
      some (.entry t (e + entrySize m t) (d.entry (entryAt m e))) := by
  rw [detectStep, if_pos he]

theorem detectStep_entry_end {e : Nat} (he : ¬e < t + tagSize m t) :
    detectStep m stop (.entry t e d) = some (.tag (t + tagStride m t) d.mapEnd) := by
  rw [detectStep, if_neg he]

/-- The steps of `memory_detect`, named after what it is at. -/
inductive Detect.Turn (m : Mem) (stop : Nat) : Detect → Detect → Prop
  | map {t : Nat} {d : Detection} (_ : TagOpen m stop t) (_ : tagType m t = tagTypeMmap) :
      Detect.Turn m stop (.tag t d)
        (.entry t (t + 16) (d.print [text "Mapa de memoria detectado:\n"]))
  | other {t : Nat} {d : Detection} (_ : TagOpen m stop t) (_ : tagType m t ≠ tagTypeMmap) :
      Detect.Turn m stop (.tag t d) (.tag (t + tagStride m t) (d.otherTag m t))
  | closed {t : Nat} {d : Detection} (_ : ¬TagOpen m stop t) :
      Detect.Turn m stop (.tag t d) (.done d.finish)
  | entry {t e : Nat} {d : Detection} (_ : e < t + tagSize m t) :
      Detect.Turn m stop (.entry t e d) (.entry t (e + entrySize m t) (d.entry (entryAt m e)))
  | entryEnd {t e : Nat} {d : Detection} (_ : ¬e < t + tagSize m t) :
      Detect.Turn m stop (.entry t e d) (.tag (t + tagStride m t) d.mapEnd)

theorem detectStep_turn {s s' : Detect} (hstep : detectStep m stop s = some s') :
    Detect.Turn m stop s s' := by
  cases s with
  | tag t d =>
    by_cases hopen : TagOpen m stop t
    · by_cases hmap : tagType m t = tagTypeMmap
      · rw [detectStep_tag_map hopen hmap] at hstep
        exact Option.some.inj hstep ▸ .map hopen hmap
      · rw [detectStep_tag_other hopen hmap] at hstep
        exact Option.some.inj hstep ▸ .other hopen hmap
    · rw [detectStep_tag_closed hopen] at hstep
      exact Option.some.inj hstep ▸ .closed hopen
  | entry t e d =>
    by_cases he : e < t + tagSize m t
    · rw [detectStep_entry he] at hstep
      exact Option.some.inj hstep ▸ .entry he
    · rw [detectStep_entry_end he] at hstep
      exact Option.some.inj hstep ▸ .entryEnd he
  | done d => exact absurd hstep nofun

theorem AtEntry.next {e : Nat} (h : AtEntry m stop start t e c i) (he : e < t + tagSize m t) :
    AtEntry m stop start t (e + entrySize m t) c (i + 1) := by
  have hpointer := h.pointer
  refine ⟨h.visits, h.isOpen, h.isMap, ?_, fun j hj => ?_⟩
  · rw [hpointer, Nat.succ_mul, Nat.add_assoc]
  · rcases Nat.lt_succ_iff_lt_or_eq.mp hj with hlt | rfl
    · exact h.before j hlt
    · omega

theorem AtEntry.entryCount {e : Nat} (h : AtEntry m stop start t e c i)
    (he : ¬e < t + tagSize m t) : EntryCount m t i := by
  have hpointer := h.pointer
  exact ⟨by omega, h.before⟩

theorem Detect.Follows.step {s s' : Detect} (h : s.Follows m stop start)
    (hstep : detectStep m stop s = some s') : s'.Follows m stop start := by
  cases detectStep_turn hstep with
  | @map t d hopen hmap =>
    have hle := d.info.count_le
    exact ⟨_, 0, ⟨h, hopen, hmap, by omega, nofun⟩, by rw [print_info]; omega⟩
  | other hopen hmap =>
    rw [Detect.Follows, otherTag_entries]
    exact h.other hopen hmap
  | closed => trivial
  | entry he =>
    obtain ⟨c, i, hat, hlength⟩ := h
    refine ⟨c, i + 1, hat.next he, ?_⟩
    rw [Detection.entry, recordEntry_length]
    omega
  | entryEnd he =>
    obtain ⟨c, i, hat, hlength⟩ := h
    rw [Detect.Follows, mapEnd_info, hlength]
    exact hat.visits.map hat.isOpen hat.isMap (hat.entryCount he)

theorem follows_start (hd : d.info.entries = []) : Detect.Follows m stop start (.tag start d) := by
  rw [Detect.Follows, hd]
  exact Visits.first

theorem reaches_follows {s s' : Detect} (h : Reaches (detectStep m stop) s s')
    (hs : s.Follows m stop start) : s'.Follows m stop start :=
  h.invariant (fun ha hstep => ha.step hstep) hs

theorem reaches_entry {s : Detect} (h : Reaches (detectStep m stop) s (.tag t d))
    (hopen : TagOpen m stop t) (hmap : tagType m t = tagTypeMmap)
    (hi : ∀ j < i, 16 + j * entrySize m t < tagSize m t) :
    ∃ d', d'.info.entries.length = min memoryMapSize (d.info.entries.length + i) ∧
      Reaches (detectStep m stop) s (.entry t (t + 16 + i * entrySize m t) d') := by
  induction i with
  | zero =>
    have hle := d.info.count_le
    refine ⟨d.print [text "Mapa de memoria detectado:\n"], ?_, ?_⟩
    · rw [print_info]
      omega
    · rw [Nat.zero_mul, Nat.add_zero]
      exact h.tail (detectStep_tag_map hopen hmap)
  | succ i ih =>
    obtain ⟨d', hlength, hreach⟩ := ih fun j hj => hi j (by omega)
    have hin := hi i (Nat.lt_succ_self i)
    have hstep := hreach.tail (detectStep_entry (by omega))
    rw [Nat.add_assoc, ← Nat.succ_mul] at hstep
    refine ⟨_, ?_, hstep⟩
    rw [Detection.entry, recordEntry_length]
    omega

theorem Visits.reaches {d : Detection} (h : Visits m stop start t c) (hd : d.info.entries = []) :
    ∃ d', d'.info.entries.length = c ∧
      Reaches (detectStep m stop) (.tag start d) (.tag t d') := by
  induction h with
  | first => exact ⟨d, by rw [hd, List.length_nil], .refl⟩
  | other _ hopen hmap ih =>
    obtain ⟨d', hlength, hreach⟩ := ih
    refine ⟨_, ?_, hreach.tail (detectStep_tag_other hopen hmap)⟩
    rw [otherTag_entries, hlength]
  | map _ hopen hmap hcount ih =>
    obtain ⟨d', hlength, hreach⟩ := ih
    obtain ⟨d'', hlength', hentry⟩ := reaches_entry hreach hopen hmap hcount.2
    have hends := hcount.1
    refine ⟨_, ?_, hentry.tail (detectStep_entry_end (by omega))⟩
    rw [mapEnd_info, hlength', hlength]

/-! ## The end of `debug_multiboot_info` -/

def Debug.Follows (m : Mem) (stop start : Nat) : Debug → Prop
  | .tag t _ _ => Chain m stop start t
  | .done _ => True

theorem debugStep_tag {ps : List Print} (hopen : TagOpen m stop t) : ∃ ps',
    debugStep m stop (.tag t n ps) = some (.tag (t + tagStride m t) (n + 1) ps') :=
  ⟨_, if_pos hopen⟩

theorem debugStep_cases {s s' : Debug} (hstep : debugStep m stop s = some s') :
    (∃ t n ps n' ps', s = .tag t n ps ∧ TagOpen m stop t ∧
      s' = .tag (t + tagStride m t) n' ps') ∨
    ∃ t n ps ps', s = .tag t n ps ∧ s' = .done ps' := by
  cases s with
  | tag t n ps =>
    rw [debugStep] at hstep
    split_ifs at hstep with hopen
    · exact .inl ⟨t, n, ps, _, _, rfl, hopen, (Option.some.inj hstep).symm⟩
    · exact .inr ⟨t, n, ps, _, rfl, (Option.some.inj hstep).symm⟩
  | done ps => exact absurd hstep nofun

theorem Debug.Follows.step {s s' : Debug} (h : s.Follows m stop start)
    (hstep : debugStep m stop s = some s') : s'.Follows m stop start := by
  obtain ⟨t, n, ps, n', ps', rfl, hopen, rfl⟩ | ⟨t, n, ps, ps', rfl, rfl⟩ := debugStep_cases hstep
  · exact h.next hopen
  · trivial

theorem Chain.reaches (h : Chain m stop start t) (count : Nat) (console : List Print) :
    ∃ count' console', Reaches (debugStep m stop) (.tag start count console)
      (.tag t count' console') := by
  induction h with
  | first => exact ⟨count, console, .refl⟩
  | next _ hopen ih =>
    obtain ⟨n, ps, hreach⟩ := ih
    obtain ⟨ps', hstep⟩ := @debugStep_tag m stop _ n ps hopen
    exact ⟨_, _, hreach.tail hstep⟩

/-- What is left of the structure behind a tag, and one more for the end of the walk. -/
def Debug.rank (stop : Nat) : Debug → Nat
  | .tag t _ _ => stop - t + 1
  | .done _ => 0

theorem debug_halts_iff (count : Nat) (console : List Print) :
    Halts (debugStep m stop) (.tag start count console) ↔
      ∀ t, Chain m stop start t → TagOpen m stop t → 0 < tagStride m t := by
  constructor
  · intro hhalts t hchain hopen
    obtain ⟨count', console', hreach⟩ := hchain.reaches count console
    by_contra hzero
    rw [Nat.not_lt, Nat.le_zero] at hzero
    -- the walk stays at this tag
    refine not_halts_of_trap (P := fun s => ∃ n ps, s = .tag t n ps) ?_ ⟨_, _, rfl⟩
      (hhalts.reaches hreach)
    rintro _ ⟨n, ps, rfl⟩
    obtain ⟨ps', hstep⟩ := @debugStep_tag m stop _ n ps hopen
    rw [hzero, Nat.add_zero] at hstep
    exact ⟨_, hstep, _, _, rfl⟩
  · intro hstrides
    refine halts_of_rank (Debug.rank stop) (P := Debug.Follows m stop start) ?_ Chain.first
    intro s s' hs hstep
    refine ⟨hs.step hstep, ?_⟩
    obtain ⟨t, n, ps, n', ps', rfl, hopen, rfl⟩ | ⟨t, n, ps, ps', rfl, rfl⟩ := debugStep_cases hstep
    · have hpos := hstrides t hs hopen
      have hlt := hopen.2
      dsimp only [Debug.rank]
      omega
    · exact Nat.succ_pos _

/-! ## The end of `memory_detect` -/

def Advances (m : Mem) (t : Nat) : Prop :=
  0 < tagStride m t ∧ (tagType m t = tagTypeMmap → 16 < tagSize m t → 0 < entrySize m t)

/-- What is left of the structure behind a tag, and within a map tag what is left of it. -/
def Detect.rank (m : Mem) (stop : Nat) : Detect → Nat ×ₗ Nat
  | .tag t _ => toLex (2 * (stop - t) + 2, 0)
  | .entry t e _ => toLex (2 * (stop - t) + 1, t + tagSize m t - e)
  | .done _ => toLex (0, 0)

theorem Detect.rank_lt {s s' : Detect} (hs : s.Follows m stop start)
    (hgood : ∀ t c, Visits m stop start t c → TagOpen m stop t → Advances m t)
    (hstep : detectStep m stop s = some s') : s'.rank m stop < s.rank m stop := by
  cases detectStep_turn hstep with
  | map =>
    -- a map tag ranks lower while its entries are read
    exact Prod.Lex.toLex_lt_toLex.mpr (.inl (by dsimp only; omega))
  | @other t d hopen hmap =>
    have hpos := (hgood t _ hs hopen).1
    have hlt := hopen.2
    exact Prod.Lex.toLex_lt_toLex.mpr (.inl (by dsimp only; omega))
  | closed => exact Prod.Lex.toLex_lt_toLex.mpr (.inl (Nat.succ_pos _))
  | @entry t e d he =>
    obtain ⟨c, i, hat, -⟩ := hs
    have hpointer := hat.pointer
    have hsize := (hgood t c hat.visits hat.isOpen).2 hat.isMap (by omega)
    exact Prod.Lex.toLex_lt_toLex.mpr (.inr ⟨rfl, by dsimp only; omega⟩)
  | @entryEnd t e d he =>
    obtain ⟨c, i, hat, -⟩ := hs
    have hpos := (hgood t c hat.visits hat.isOpen).1
    have hlt := hat.isOpen.2
    exact Prod.Lex.toLex_lt_toLex.mpr (.inl (by dsimp only; omega))

theorem not_halts_of_stride (hopen : TagOpen m stop t) (hzero : tagStride m t = 0) :
    ¬Halts (detectStep m stop) (.tag t d) := by
  refine not_halts_of_trap
    (P := fun s => (∃ d, s = .tag t d) ∨ ∃ e d, s = .entry t e d) ?_ (.inl ⟨d, rfl⟩)
  rintro _ (⟨d, rfl⟩ | ⟨e, d, rfl⟩)
  · by_cases hmap : tagType m t = tagTypeMmap
    · exact ⟨_, detectStep_tag_map hopen hmap, .inr ⟨_, _, rfl⟩⟩
    · have hstep := detectStep_tag_other (d := d) hopen hmap
      rw [hzero, Nat.add_zero] at hstep
      exact ⟨_, hstep, .inl ⟨_, rfl⟩⟩
  · by_cases he : e < t + tagSize m t
    · exact ⟨_, detectStep_entry he, .inr ⟨_, _, rfl⟩⟩
    · have hstep := @detectStep_entry_end m stop t d e he
      rw [hzero, Nat.add_zero] at hstep
      exact ⟨_, hstep, .inl ⟨_, rfl⟩⟩

theorem not_halts_of_entrySize {e : Nat} (he : e < t + tagSize m t) (hzero : entrySize m t = 0) :
    ¬Halts (detectStep m stop) (.entry t e d) := by
  refine not_halts_of_trap (P := fun s => ∃ d, s = .entry t e d) ?_ ⟨d, rfl⟩
  rintro _ ⟨d, rfl⟩
  have hstep := @detectStep_entry m stop t d e he
  rw [hzero, Nat.add_zero] at hstep
  exact ⟨_, hstep, _, rfl⟩

theorem detect_halts_iff (hd : d.info.entries = []) :
    Halts (detectStep m stop) (.tag start d) ↔
      ∀ t c, Visits m stop start t c → TagOpen m stop t → Advances m t := by
  constructor
  · intro hhalts t c hvisits hopen
    obtain ⟨d', -, hreach⟩ := hvisits.reaches hd
    have hthere := hhalts.reaches hreach
    refine ⟨?_, fun hmap hsize => ?_⟩
    · by_contra hzero
      exact not_halts_of_stride hopen (Nat.eq_zero_of_not_pos hzero) hthere
    · by_contra hzero
      have hentry := hthere.reaches (.single (detectStep_tag_map hopen hmap))
      exact not_halts_of_entrySize (by omega) (Nat.eq_zero_of_not_pos hzero) hentry
  · intro hgood
    exact halts_of_rank (Detect.rank m stop) (P := Detect.Follows m stop start)
      (fun hs hstep => ⟨hs.step hstep, Detect.rank_lt hs hgood hstep⟩) (follows_start hd)

theorem Chain.visits (h : Chain m stop start t)
    (hgood : ∀ t c, Visits m stop start t c → TagOpen m stop t → Advances m t) :
    ∃ c, Visits m stop start t c := by
  induction h with
  | first => exact ⟨0, .first⟩
  | @next t _ hopen ih =>
    obtain ⟨c, hvisits⟩ := ih
    by_cases hmap : tagType m t = tagTypeMmap
    · obtain ⟨n, hcount⟩ := exists_entryCount fun hsize =>
        ((hgood t c hvisits hopen).2 hmap hsize).ne'
      exact ⟨_, hvisits.map hopen hmap hcount⟩
    · exact ⟨c, hvisits.other hopen hmap⟩

end Walk

/-! ## Termination -/

/-- Every iteration of a loop of `memory_detect` moves its pointer up. -/
def DetectAdvances (m : Mem) (stop : Nat) (s : Detect) : Prop :=
  (∀ t d, Reaches (detectStep m stop) s (.tag t d) → TagOpen m stop t → t < t + tagStride m t) ∧
    ∀ t e d, Reaches (detectStep m stop) s (.entry t e d) → e < t + tagSize m t →
      e < e + entrySize m t

def DebugAdvances (m : Mem) (stop : Nat) (s : Debug) : Prop :=
  ∀ t n ps, Reaches (debugStep m stop) s (.tag t n ps) → TagOpen m stop t → t < t + tagStride m t

section Terminate
variable {m : Mem} {multibootInfo : Nat}

/-- What is left of `memory_info` after the reset, whatever it was. -/
def emptyInfo : MemoryInfo := ⟨[], 0, 0, Nat.zero_le _⟩

theorem memoryDetect_eq (hpos : multibootInfo ≠ 0) (haligned : multibootInfo &&& 7 = 0)
    (before : Detection) : ∃ d : Detection, d.info = emptyInfo ∧
      memoryDetect m multibootInfo before = .tag (u32 (multibootInfo + 8)) d := by
  refine ⟨Detection.print ⟨resetInfo before.info, before.console⟩ (detectHeader m multibootInfo),
    rfl, ?_⟩
  rw [memoryDetect, if_neg hpos, if_neg (not_not_intro haligned)]

theorem debugMultibootInfo_eq (hpos : multibootInfo ≠ 0) (haligned : multibootInfo &&& 7 = 0)
    (console : List Print) : ∃ console', debugMultibootInfo m bootloaderMagic multibootInfo console =
      .tag (u32 (multibootInfo + 8)) 0 console' := by
  exact ⟨_, by
    rw [debugMultibootInfo, if_neg (not_not_intro rfl), if_neg hpos,
      if_neg (not_not_intro haligned)]⟩

/-- Both functions come to an end, and advance in every iteration, exactly when every tag
below the end, up to the first END tag, has a size from 1 to `2 ^ 32 - 8`, and every map
tag with room for an entry has an entry size other than zero. -/
theorem walks_terminate_iff (hpos : multibootInfo ≠ 0) (haligned : multibootInfo &&& 7 = 0)
    (before : Detection) (console : List Print) :
    (Halts (detectStep m (stop m multibootInfo)) (memoryDetect m multibootInfo before) ∧
      DetectAdvances m (stop m multibootInfo) (memoryDetect m multibootInfo before) ∧
      Halts (debugStep m (stop m multibootInfo))
        (debugMultibootInfo m bootloaderMagic multibootInfo console) ∧
      DebugAdvances m (stop m multibootInfo)
        (debugMultibootInfo m bootloaderMagic multibootInfo console)) ↔
    ∀ t, Chain m (stop m multibootInfo) (u32 (multibootInfo + 8)) t →
      TagOpen m (stop m multibootInfo) t →
      (1 ≤ tagSize m t ∧ tagSize m t ≤ 2 ^ 32 - 8) ∧
        (tagType m t = tagTypeMmap → 16 < tagSize m t → entrySize m t ≠ 0) := by
  obtain ⟨d, hd, hdetect⟩ := memoryDetect_eq (m := m) hpos haligned before
  obtain ⟨console', hdebug⟩ := debugMultibootInfo_eq (m := m) hpos haligned console
  have hentries : d.info.entries = [] := by rw [hd]; rfl
  rw [hdetect, hdebug, detect_halts_iff hentries, debug_halts_iff]
  constructor
  · rintro ⟨hgood, -, -, -⟩ t hchain hopen
    obtain ⟨c, hvisits⟩ := hchain.visits hgood
    obtain ⟨hstride, hentry⟩ := hgood t c hvisits hopen
    exact ⟨tagStride_pos_iff.mp hstride, fun hmap hsize => (hentry hmap hsize).ne'⟩
  · intro hgood
    have hstride : ∀ t, Chain m (stop m multibootInfo) (u32 (multibootInfo + 8)) t →
        TagOpen m (stop m multibootInfo) t → 0 < tagStride m t :=
      fun t hchain hopen => tagStride_pos_iff.mpr (hgood t hchain hopen).1
    refine ⟨fun t c hvisits hopen => ⟨hstride t hvisits.chain hopen, fun hmap hsize => ?_⟩, ⟨?_, ?_⟩,
      hstride, ?_⟩
    · exact Nat.pos_of_ne_zero ((hgood t hvisits.chain hopen).2 hmap hsize)
    · intro t d' hreach hopen
      have hvisits : Visits m _ _ t _ := reaches_follows hreach (follows_start hentries)
      exact Nat.lt_add_of_pos_right (hstride t hvisits.chain hopen)
    · intro t e d' hreach he
      obtain ⟨c, i, hat, -⟩ : Detect.Follows m _ _ (.entry t e d') :=
        reaches_follows hreach (follows_start hentries)
      have hpointer := hat.pointer
      have hsize := (hgood t hat.visits.chain hat.isOpen).2 hat.isMap (by omega)
      exact Nat.lt_add_of_pos_right (Nat.pos_of_ne_zero hsize)
    · intro t n ps hreach hopen
      have hchain : Debug.Follows m _ _ (.tag t n ps) :=
        hreach.invariant (fun ha hstep => ha.step hstep) Chain.first
      exact Nat.lt_add_of_pos_right (hstride t hchain hopen)

end Terminate

/-- Boot information at 64 KiB, given by its 32-bit words. -/
def bootInfo (words : List Nat) : Mem := fun a =>
  UInt8.ofNat (words.getD ((a - 0x10000) / 4) 0 / 256 ^ ((a - 0x10000) % 4))

def oneRegion : Mem := bootInfo [56, 0, 6, 40, 24, 0, 0x100000, 0, 0x7EE0000, 0, 1, 0, 0, 8]

theorem oneRegion_chain {t : Nat} (h : Chain oneRegion (stop oneRegion 0x10000) 0x10008 t) :
    t = 0x10008 ∨ t = 0x10030 := by
  induction h with
  | first => exact .inl rfl
  | next _ hopen ih =>
    rcases ih with rfl | rfl
    · exact .inr (by decide)
    · exact absurd hopen (by decide)

theorem walks_terminate_oneRegion :
    Halts (detectStep oneRegion (stop oneRegion 0x10000))
      (memoryDetect oneRegion 0x10000 ⟨emptyInfo, []⟩) ∧
    Halts (debugStep oneRegion (stop oneRegion 0x10000))
      (debugMultibootInfo oneRegion bootloaderMagic 0x10000 []) := by
  have hsizes : ∀ t, Chain oneRegion (stop oneRegion 0x10000) (u32 (0x10000 + 8)) t →
      TagOpen oneRegion (stop oneRegion 0x10000) t →
      (1 ≤ tagSize oneRegion t ∧ tagSize oneRegion t ≤ 2 ^ 32 - 8) ∧
        (tagType oneRegion t = tagTypeMmap → 16 < tagSize oneRegion t →
          entrySize oneRegion t ≠ 0) := by
    intro t hchain hopen
    rcases oneRegion_chain hchain with rfl | rfl
    · decide
    · exact absurd hopen (by decide)
  obtain ⟨hdetect, -, hdebug, -⟩ :=
    (walks_terminate_iff (by decide) (by decide) ⟨emptyInfo, []⟩ []).mpr hsizes
  exact ⟨hdetect, hdebug⟩

/-- A tag of size zero is examined forever. -/
theorem zero_size_hangs : ¬Halts
    (detectStep (bootInfo [24, 0, 3, 0, 0, 8]) (stop (bootInfo [24, 0, 3, 0, 0, 8]) 0x10000))
    (memoryDetect (bootInfo [24, 0, 3, 0, 0, 8]) 0x10000 ⟨emptyInfo, []⟩) := by
  have hpos : 0x10000 ≠ 0 := by decide
  obtain ⟨d, -, hstart⟩ := memoryDetect_eq (m := bootInfo [24, 0, 3, 0, 0, 8]) hpos (by decide)
    ⟨emptyInfo, []⟩
  rw [hstart]
  exact not_halts_of_stride (by decide) (by decide)

end AlvOS.Multiboot
