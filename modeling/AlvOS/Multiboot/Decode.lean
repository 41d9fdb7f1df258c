import Mathlib.Algebra.GroupWithZero.Nat
import AlvOS.Memory.Stats
import AlvOS.Multiboot.Walk

/-! Well-formed boot information as a list of tags, and what `memory_detect` makes of it:
the table holds the entries of all memory maps in order, and the totals are what the last
handler left plus what was recorded after it. -/

namespace AlvOS.Multiboot
open ByteMemory Word Memory Machine

/-! ## Tags -/

inductive Tag
  | mmap (entrySize : Nat) (entries : List MemoryMapEntry)
  | basicMeminfo (size memLower memUpper : Nat)
  | other (type size : Nat)

namespace Tag

def size : Tag → Nat
  | .mmap entrySize entries => 16 + entries.length * entrySize
  | .basicMeminfo size _ _ => size
  | .other _ size => size

def entries : Tag → List MemoryMapEntry
  | .mmap _ entries => entries
  | _ => []

def IsBasicMeminfo : Tag → Prop
  | .basicMeminfo _ _ _ => True
  | _ => False

/-- The tag is what the memory holds at `t`. -/
def At (m : Mem) (t : Nat) : Tag → Prop
  | .mmap entrySize entries => tagType m t = tagTypeMmap ∧
      tagSize m t = 16 + entries.length * entrySize ∧ Multiboot.entrySize m t = entrySize ∧
      24 ≤ entrySize ∧
      ∀ i, (h : i < entries.length) → entryAt m (t + 16 + i * entrySize) = entries[i]
  | .basicMeminfo size lower upper => tagType m t = tagTypeBasicMeminfo ∧ tagSize m t = size ∧
      8 ≤ size ∧ memLower m t = lower ∧ memUpper m t = upper
  | .other type size => tagType m t = type ∧ tagSize m t = size ∧ 8 ≤ size ∧
      type ≠ tagTypeEnd ∧ type ≠ tagTypeBasicMeminfo ∧ type ≠ tagTypeMmap

/-- What the tag does to `memory_info`. -/
def effect (info : MemoryInfo) : Tag → MemoryInfo
  | .mmap _ entries => entries.foldl recordEntry info
  | .basicMeminfo _ lower upper => setTotal info (u32 (lower * 1024) + u32 (upper * 1024))
  | .other _ _ => info

end Tag

/-- The tags lie one after the other from `t` on, each at the next multiple of eight bytes,
up to an END tag that ends by `stop`. -/
inductive Layout (m : Mem) (stop : Nat) : Nat → List Tag → Prop
  | last {t : Nat} : tagType m t = tagTypeEnd → t + 8 ≤ stop → Layout m stop t []
  | cons {t : Nat} {tag : Tag} {tags : List Tag} : tag.At m t →
      Layout m stop (t + (tag.size + 7) / 8 * 8) tags → Layout m stop t (tag :: tags)

structure WellFormed (m : Mem) (multibootInfo : Nat) (tags : List Tag) : Prop where
  pos : multibootInfo ≠ 0
  aligned : multibootInfo &&& 7 = 0
  fits : stop m multibootInfo ≤ 2 ^ 32
  layout : Layout m (stop m multibootInfo) (multibootInfo + 8) tags

def mapEntries (tags : List Tag) : List MemoryMapEntry := tags.flatMap Tag.entries

section Run
variable {m : Mem} {stop t : Nat} {d : Detection} {tag : Tag} {tags : List Tag}

theorem Layout.le_stop (h : Layout m stop t tags) : t + 8 ≤ stop := by
  induction h with
  | last _ hle => exact hle
  | cons _ _ ih => omega

theorem Tag.At.size_eq (h : tag.At m t) : tagSize m t = tag.size := by
  cases tag with
  | mmap entrySize entries => exact h.2.1
  | basicMeminfo size lower upper => exact h.2.1
  | other type size => exact h.2.1

theorem Tag.At.type_ne (h : tag.At m t) : tagType m t ≠ tagTypeEnd := by
  cases tag with
  | mmap entrySize entries => exact h.1 ▸ (by decide)
  | basicMeminfo size lower upper => exact h.1 ▸ (by decide)
  | other type size => exact h.1 ▸ h.2.2.2.1

theorem reaches_entries (stop : Nat) {size i : Nat} {rest : List MemoryMapEntry} (d : Detection)
    (hsize : entrySize m t = size) (hpos : 0 < size)
    (hend : tagSize m t = 16 + (i + rest.length) * size)
    (hrest : ∀ j, (h : j < rest.length) → entryAt m (t + 16 + (i + j) * size) = rest[j]) :
    ∃ d', d'.info = rest.foldl recordEntry d.info ∧
      Reaches (detectStep m stop) (.entry t (t + 16 + i * size) d)
        (.entry t (t + tagSize m t) d') := by
  induction rest generalizing i d with
  | nil =>
    refine ⟨d, rfl, ?_⟩
    rw [hend, List.length_nil, Nat.add_zero, Nat.add_assoc]
    exact .refl
  | cons e rest ih =>
    have hlength : i + (e :: rest).length = i + 1 + rest.length := by
      rw [List.length_cons, Nat.add_right_comm, Nat.add_assoc]
    rw [hlength] at hend
    obtain ⟨d', hinfo, hreach⟩ := ih (d.entry e) hend fun j hj => by
      have hnext := hrest (j + 1) (Nat.succ_lt_succ hj)
      have hshift : i + 1 + j = i + (j + 1) := by rw [Nat.add_assoc, Nat.add_comm 1 j]
      rw [hshift]
      exact hnext
    have hfirst : entryAt m (t + 16 + i * size) = e := hrest 0 (Nat.succ_pos _)
    have hin : t + 16 + i * size < t + tagSize m t := by
      rw [hend, Nat.add_mul, Nat.add_mul]
      omega
    refine ⟨d', hinfo, .head (detectStep_entry hin) ?_⟩
    rwa [hfirst, hsize, Nat.add_assoc, ← Nat.succ_mul]

theorem reaches_tag (h : tag.At m t) (hlt : t < stop) (d : Detection) :
    ∃ d', d'.info = tag.effect d.info ∧
      Reaches (detectStep m stop) (.tag t d) (.tag (t + tagStride m t) d') := by
  have hopen : TagOpen m stop t := ⟨h.type_ne, hlt⟩
  cases tag with
  | mmap size entries =>
    obtain ⟨htype, hend, hsize, hlarge, hentries⟩ := h
    obtain ⟨d', hinfo, hreach⟩ := reaches_entries stop (i := 0)
      (d.print [text "Mapa de memoria detectado:\n"]) hsize (by omega) (by rwa [Nat.zero_add])
      (by simpa only [Nat.zero_add] using hentries)
    rw [Nat.zero_mul, Nat.add_zero] at hreach
    refine ⟨d'.mapEnd, ?_, .head (detectStep_tag_map hopen htype)
      (hreach.tail (detectStep_entry_end (Nat.lt_irrefl _)))⟩
    rw [mapEnd_info, hinfo]
    rfl
  | basicMeminfo size lower upper =>
    obtain ⟨htype, -, -, rfl, rfl⟩ := h
    have hmap : tagType m t ≠ tagTypeMmap := htype ▸ (by decide)
    refine ⟨d.otherTag m t, ?_, .single (detectStep_tag_other hopen hmap)⟩
    rw [Detection.otherTag, if_pos htype]
    rfl
  | other type size =>
    obtain ⟨rfl, -, -, -, hbasic, hmap⟩ := h
    refine ⟨d.otherTag m t, ?_, .single (detectStep_tag_other hopen hmap)⟩
    rw [Detection.otherTag, if_neg hbasic]
    split_ifs <;> rfl

/-! ## All tags -/

/-- `memory_detect` comes to the END tag and has then applied every tag in order. -/
theorem Layout.halts (h : Layout m stop t tags) (hstop : stop ≤ 2 ^ 32) (d : Detection) :
    ∃ d', d'.info = tags.foldl Tag.effect d.info ∧
      HaltsAt (detectStep m stop) (.tag t d) (.done d') := by
  induction h generalizing d with
  | last htype _ =>
    refine ⟨d.finish, rfl, .single (detectStep_tag_closed fun hopen => hopen.1 htype), rfl⟩
  | @cons t tag tags hat hrest ih =>
    have hle := hrest.le_stop
    have hstride : tagStride m t = (tag.size + 7) / 8 * 8 := by
      rw [tagStride_eq, hat.size_eq, Nat.mod_eq_of_lt (by omega)]
    obtain ⟨d', hinfo, hreach⟩ := reaches_tag hat (by omega : t < stop) d
    rw [hstride] at hreach
    obtain ⟨d'', hinfo', hhalts⟩ := ih d'
    refine ⟨d'', ?_, .of_reaches hreach hhalts⟩
    rw [hinfo', hinfo, List.foldl_cons]

end Run

theorem WellFormed.halts {m : Mem} {multibootInfo : Nat} {tags : List Tag}
    (h : WellFormed m multibootInfo tags) (before : Detection) :
    ∃ d, d.info = tags.foldl Tag.effect emptyInfo ∧
      HaltsAt (detectStep m (stop m multibootInfo)) (memoryDetect m multibootInfo before)
        (.done d) := by
  obtain ⟨d, hd, hstart⟩ := memoryDetect_eq (m := m) h.pos h.aligned before
  have hle := h.layout.le_stop
  have hfits := h.fits
  obtain ⟨d', hinfo, hhalts⟩ := h.layout.halts h.fits d
  rw [hd] at hinfo
  refine ⟨d', hinfo, ?_⟩
  rwa [hstart, u32, Nat.mod_eq_of_lt (by omega)]

section Table
variable {info : MemoryInfo}

theorem take_append_take {α : Type*} (l k : List α) (n : Nat) :
    (l.take n ++ k).take n = (l ++ k).take n := by
  rw [List.take_append, List.take_append, List.take_take, Nat.min_self, List.length_take]
  congr 2
  omega

theorem recordEntry_entries (info : MemoryInfo) (e : MemoryMapEntry) :
    (recordEntry info e).entries = (info.entries ++ [e]).take memoryMapSize := by
  have hle := info.count_le
  by_cases hlt : info.entries.length < memoryMapSize
  · rw [recordEntry, dif_pos hlt, List.take_of_length_le]
    rwa [List.length_append, List.length_singleton]
  · rw [recordEntry, dif_neg hlt, List.take_append_of_le_length (not_lt.mp hlt),
      List.take_of_length_le hle]

theorem recordEntries_entries (entries : List MemoryMapEntry) :
    (entries.foldl recordEntry info).entries = (info.entries ++ entries).take memoryMapSize := by
  induction entries generalizing info with
  | nil => rw [List.foldl_nil, List.append_nil, List.take_of_length_le info.count_le]
  | cons e entries ih =>
    rw [List.foldl_cons, ih, recordEntry_entries, take_append_take, List.append_assoc,
      List.singleton_append]

theorem effects_entries (tags : List Tag) : (tags.foldl Tag.effect info).entries =
    (info.entries ++ mapEntries tags).take memoryMapSize := by
  induction tags generalizing info with
  | nil =>
    rw [mapEntries, List.flatMap_nil, List.foldl_nil, List.append_nil,
      List.take_of_length_le info.count_le]
  | cons tag tags ih =>
    have hone : (tag.effect info).entries = (info.entries ++ tag.entries).take memoryMapSize := by
      cases tag with
      | mmap size entries => exact recordEntries_entries entries
      | basicMeminfo size lower upper =>
        change info.entries = (info.entries ++ []).take memoryMapSize
        rw [List.append_nil, List.take_of_length_le info.count_le]
      | other type size =>
        change info.entries = (info.entries ++ []).take memoryMapSize
        rw [List.append_nil, List.take_of_length_le info.count_le]
    rw [List.foldl_cons, ih, hone, take_append_take, List.append_assoc, mapEntries, mapEntries,
      List.flatMap_cons]

end Table

/-- The table holds the first 256 entries of the memory maps, and the region that is found
is a longest available one of these. -/
theorem map_decoded {m : Mem} {multibootInfo : Nat} {tags : List Tag}
    (h : WellFormed m multibootInfo tags) (before : Detection) :
    ∃ d, HaltsAt (detectStep m (stop m multibootInfo)) (memoryDetect m multibootInfo before)
        (.done d) ∧
      d.info.entries = (mapEntries tags).take memoryMapSize ∧
      Kernel.Longest d.info.entries (Kernel.findAvailableMemoryRegion d.info) := by
  obtain ⟨d, hinfo, hhalts⟩ := h.halts before
  refine ⟨d, hhalts, ?_, Kernel.findAvailableMemoryRegion_longest d.info⟩
  rw [hinfo, effects_entries]
  rfl

def usable : MemoryMapEntry := mapEntry 0x100000 0x7EE0000 1

theorem usable_at {m : Mem} {t : Nat} (h : tagType m t = tagTypeMmap ∧ tagSize m t = 40 ∧
    entrySize m t = 24) (he : entryAt m (t + 16) = usable) : Tag.At m t (.mmap 24 [usable]) := by
  refine ⟨h.1, h.2.1, h.2.2, Nat.le_refl 24, fun i hi => ?_⟩
  obtain rfl : i = 0 := Nat.lt_one_iff.mp hi
  rw [Nat.zero_mul]
  exact he

/-- As a boot loader lays it out: BASIC_MEMINFO comes before the map. -/
def basicFirst : Mem :=
  bootInfo [72, 0, 4, 16, 639, 129920, 6, 40, 24, 0, 0x100000, 0, 0x7EE0000, 0, 1, 0, 0, 8]

theorem basicFirst_wellFormed :
    WellFormed basicFirst 0x10000 [.basicMeminfo 16 639 129920, .mmap 24 [usable]] where
  pos := by decide
  aligned := by decide
  fits := by decide
  layout := .cons (by rw [Tag.At]; decide)
    (.cons (usable_at (by decide) rfl) (.last (by decide) (by decide)))

theorem map_decoded_basicFirst : ∃ d, HaltsAt (detectStep basicFirst (stop basicFirst 0x10000))
    (memoryDetect basicFirst 0x10000 ⟨emptyInfo, []⟩) (.done d) ∧ d.info.entries = [usable] := by
  obtain ⟨d, hhalts, hentries, -⟩ := map_decoded basicFirst_wellFormed ⟨emptyInfo, []⟩
  exact ⟨d, hhalts, hentries⟩

/-! ## The totals -/

def totalLength (entries : List MemoryMapEntry) : Nat := (entries.map MemoryMapEntry.length).sum

def availableEntries (entries : List MemoryMapEntry) : List MemoryMapEntry :=
  entries.filter fun e => e.type = memoryAvailable

def TotalsExact (info : MemoryInfo) : Prop :=
  info.totalMemory = u64 (totalLength info.entries) ∧
    info.availableMemory = u64 (totalLength (availableEntries info.entries))

/-- The last BASIC_MEMINFO tag, if there is one, states the sum of the maps before it, and
that all of it is available. -/
def BasicAgrees (tags : List Tag) : Prop :=
  ∀ earlier size lower upper later, tags = earlier ++ .basicMeminfo size lower upper :: later →
    (∀ tag ∈ later, ¬tag.IsBasicMeminfo) →
    u32 (lower * 1024) + u32 (upper * 1024) = u64 (totalLength (mapEntries earlier)) ∧
      u32 (lower * 1024) + u32 (upper * 1024) =
        u64 (totalLength (availableEntries (mapEntries earlier)))

section Totals
variable {info info' info'' : MemoryInfo} {tags earlier later : List Tag}

theorem totalLength_append (l k : List MemoryMapEntry) :
    totalLength (l ++ k) = totalLength l + totalLength k := by
  rw [totalLength, List.map_append, List.sum_append]
  rfl

theorem availableEntries_append (l k : List MemoryMapEntry) :
    availableEntries (l ++ k) = availableEntries l ++ availableEntries k :=
  List.filter_append l k

structure Adds (info info' : MemoryInfo) (entries : List MemoryMapEntry) : Prop where
  total : info'.totalMemory = u64 (info.totalMemory + totalLength entries)
  available : info'.availableMemory =
    u64 (info.availableMemory + totalLength (availableEntries entries))

structure Bounded (info : MemoryInfo) : Prop where
  total : info.totalMemory < 2 ^ 64
  available : info.availableMemory < 2 ^ 64

theorem Adds.refl (h : Bounded info) : Adds info info [] where
  total := (u64_of_lt h.total).symm
  available := (u64_of_lt h.available).symm

theorem Adds.trans {l k : List MemoryMapEntry} (h : Adds info info' l) (h' : Adds info' info'' k) :
    Adds info info'' (l ++ k) := by
  refine ⟨?_, ?_⟩
  · rw [h'.total, h.total, totalLength_append, ← Nat.add_assoc]
    exact Nat.mod_add_mod _ _ _
  · rw [h'.available, h.available, availableEntries_append, totalLength_append, ← Nat.add_assoc]
    exact Nat.mod_add_mod _ _ _

theorem Adds.bounded {entries : List MemoryMapEntry} (h : Adds info info' entries) :
    Bounded info' where
  total := h.total ▸ u64_lt _
  available := h.available ▸ u64_lt _

theorem recordEntry_adds (hinfo : Bounded info) (hroom : info.entries.length < memoryMapSize)
    (e : MemoryMapEntry) : Adds info (recordEntry info e) [e] := by
  rw [recordEntry, dif_pos hroom]
  by_cases htype : e.type = memoryAvailable
  · have hone : availableEntries [e] = [e] := List.filter_singleton.trans (by simp [htype])
    exact ⟨rfl, by rw [hone]; exact if_pos htype⟩
  · have hnone : availableEntries [e] = [] := List.filter_singleton.trans (by simp [htype])
    refine ⟨rfl, ?_⟩
    rw [hnone]
    exact (if_neg htype).trans (u64_of_lt hinfo.available).symm

theorem recordEntries_adds {entries : List MemoryMapEntry} (hinfo : Bounded info)
    (hroom : info.entries.length + entries.length ≤ memoryMapSize) :
    Adds info (entries.foldl recordEntry info) entries := by
  induction entries generalizing info with
  | nil => exact .refl hinfo
  | cons e entries ih =>
    rw [List.length_cons] at hroom
    have hfirst := recordEntry_adds hinfo (by omega) e
    have hlength := recordEntry_length info e
    exact hfirst.trans (ih hfirst.bounded (by omega))

theorem effects_adds (hinfo : Bounded info) (hbasic : ∀ tag ∈ tags, ¬tag.IsBasicMeminfo)
    (hroom : info.entries.length + (mapEntries tags).length ≤ memoryMapSize) :
    Adds info (tags.foldl Tag.effect info) (mapEntries tags) := by
  induction tags generalizing info with
  | nil => exact .refl hinfo
  | cons tag tags ih =>
    rw [mapEntries, List.flatMap_cons, List.length_append] at hroom
    change _ + (_ + (mapEntries tags).length) ≤ _ at hroom
    have hfirst : Adds info (tag.effect info) tag.entries := by
      cases tag with
      | mmap size entries =>
        dsimp only [Tag.entries] at hroom
        exact recordEntries_adds hinfo (by omega)
      | basicMeminfo size lower upper => exact absurd trivial (hbasic _ List.mem_cons_self)
      | other type size => exact .refl hinfo
    -- what is left of the table still has room for the rest
    have hlength : (tag.effect info).entries.length ≤ info.entries.length + tag.entries.length := by
      have hone : ([tag].foldl Tag.effect info).entries = _ := effects_entries [tag]
      rw [mapEntries, List.flatMap_singleton] at hone
      change (tag.effect info).entries = _ at hone
      rw [hone, ← List.length_append]
      exact List.length_take_le' _ _
    exact hfirst.trans (ih hfirst.bounded (fun tag htag => hbasic tag (List.mem_cons_of_mem _ htag))
      (by omega))

theorem basic_lt (lower upper : Nat) : u32 (lower * 1024) + u32 (upper * 1024) < 2 ^ 64 := by
  dsimp only [u32]
  omega

theorem split_last_basic (tags : List Tag) : (∀ tag ∈ tags, ¬tag.IsBasicMeminfo) ∨
    ∃ earlier size lower upper later, tags = earlier ++ .basicMeminfo size lower upper :: later ∧
      ∀ tag ∈ later, ¬tag.IsBasicMeminfo := by
  induction tags with
  | nil => exact .inl fun tag htag => absurd htag List.not_mem_nil
  | cons tag tags ih =>
    rcases ih with hnone | ⟨earlier, size, lower, upper, later, rfl, hlater⟩
    · -- it is the first tag, or there is none
      cases tag with
      | basicMeminfo size lower upper => exact .inr ⟨[], size, lower, upper, tags, rfl, hnone⟩
      | mmap size entries => exact .inl (List.forall_mem_cons.mpr ⟨not_false, hnone⟩)
      | other type size => exact .inl (List.forall_mem_cons.mpr ⟨not_false, hnone⟩)
    · exact .inr ⟨tag :: earlier, size, lower, upper, later, rfl, hlater⟩

theorem u64_add_eq_iff {a : Nat} (ha : a < 2 ^ 64) (b c : Nat) :
    u64 (a + c) = u64 (b + c) ↔ a = u64 b := by
  dsimp only [u64]
  omega

theorem effects_entries_of_room (hroom : (mapEntries tags).length ≤ memoryMapSize) :
    (tags.foldl Tag.effect emptyInfo).entries = mapEntries tags := by
  rw [effects_entries]
  exact List.take_of_length_le hroom

theorem totalsExact_split_iff {size lower upper : Nat}
    (hroom : (mapEntries (earlier ++ .basicMeminfo size lower upper :: later)).length ≤
      memoryMapSize) (hlater : ∀ tag ∈ later, ¬tag.IsBasicMeminfo) :
    TotalsExact ((earlier ++ .basicMeminfo size lower upper :: later).foldl Tag.effect emptyInfo) ↔
      u32 (lower * 1024) + u32 (upper * 1024) = u64 (totalLength (mapEntries earlier)) ∧
        u32 (lower * 1024) + u32 (upper * 1024) =
          u64 (totalLength (availableEntries (mapEntries earlier))) := by
  have hentries := effects_entries_of_room hroom
  have hmap : mapEntries (earlier ++ .basicMeminfo size lower upper :: later) =
      mapEntries earlier ++ mapEntries later := by
    rw [mapEntries, List.flatMap_append, List.flatMap_cons]
    rfl
  rw [hmap, List.length_append] at hroom
  have hearlier : (earlier.foldl Tag.effect emptyInfo).entries = mapEntries earlier :=
    effects_entries_of_room ((Nat.le_add_right _ _).trans hroom)
  have hset : Bounded (setTotal (earlier.foldl Tag.effect emptyInfo)
      (u32 (lower * 1024) + u32 (upper * 1024))) := ⟨basic_lt lower upper, basic_lt lower upper⟩
  have hadds := effects_adds hset hlater (by rw [setTotal, hearlier]; exact hroom)
  rw [TotalsExact, hentries, hmap, List.foldl_append, List.foldl_cons, Tag.effect, hadds.total,
    hadds.available, availableEntries_append, totalLength_append, totalLength_append]
  exact and_congr (u64_add_eq_iff (basic_lt lower upper) _ _)
    (u64_add_eq_iff (basic_lt lower upper) _ _)

theorem totalsExact_iff (hroom : (mapEntries tags).length ≤ memoryMapSize) :
    TotalsExact (tags.foldl Tag.effect emptyInfo) ↔ BasicAgrees tags := by
  constructor
  · rintro hexact earlier size lower upper later rfl hlater
    exact (totalsExact_split_iff hroom hlater).mp hexact
  · intro hagrees
    rcases split_last_basic tags with hnone | ⟨earlier, size, lower, upper, later, rfl, hlater⟩
    · -- nothing is assigned
      have hempty : Bounded emptyInfo := ⟨Nat.two_pow_pos 64, Nat.two_pow_pos 64⟩
      have hadds := effects_adds hempty hnone (by rwa [emptyInfo, List.length_nil, Nat.zero_add])
      rw [TotalsExact, effects_entries_of_room hroom, hadds.total, hadds.available]
      exact ⟨congrArg u64 (Nat.zero_add _), congrArg u64 (Nat.zero_add _)⟩
    · exact (totalsExact_split_iff hroom hlater).mpr
        (hagrees earlier size lower upper later rfl hlater)

theorem basicAgrees_of_none (h : ∀ tag ∈ tags, ¬tag.IsBasicMeminfo) : BasicAgrees tags := by
  rintro earlier size lower upper later rfl -
  exact absurd trivial (h (.basicMeminfo size lower upper) (by simp))

theorem TotalsExact.perm (h : TotalsExact info) (h' : TotalsExact info')
    (hperm : info.entries.Perm info'.entries) : info.totalMemory = info'.totalMemory ∧
      info.availableMemory = info'.availableMemory := by
  have hall : totalLength info.entries = totalLength info'.entries := (hperm.map _).sum_nat
  have havailable : totalLength (availableEntries info.entries) =
      totalLength (availableEntries info'.entries) := ((hperm.filter _).map _).sum_nat
  rw [h.1, h'.1, h.2, h'.2, hall, havailable]
  exact ⟨rfl, rfl⟩

end Totals

/-- The totals are exact when and only when the last BASIC_MEMINFO tag agrees with the maps
before it, and then they do not depend on the order of the tags. -/
theorem totals_exact_iff {m : Mem} {multibootInfo : Nat} {tags : List Tag}
    (h : WellFormed m multibootInfo tags) (hroom : (mapEntries tags).length ≤ memoryMapSize)
    (before : Detection) :
    ∃ d, HaltsAt (detectStep m (stop m multibootInfo)) (memoryDetect m multibootInfo before)
        (.done d) ∧
      (TotalsExact d.info ↔ BasicAgrees tags) ∧
      ∀ m' multibootInfo' tags' before', WellFormed m' multibootInfo' tags' → tags.Perm tags' →
        BasicAgrees tags → BasicAgrees tags' → ∃ d',
          HaltsAt (detectStep m' (stop m' multibootInfo')) (memoryDetect m' multibootInfo' before')
            (.done d') ∧
          d.info.totalMemory = d'.info.totalMemory ∧
          d.info.availableMemory = d'.info.availableMemory := by
  obtain ⟨d, hinfo, hhalts⟩ := h.halts before
  refine ⟨d, hhalts, hinfo ▸ totalsExact_iff hroom, ?_⟩
  intro m' multibootInfo' tags' before' h' hperm hagrees hagrees'
  obtain ⟨d', hinfo', hhalts'⟩ := h'.halts before'
  have hentries : (mapEntries tags).Perm (mapEntries tags') := hperm.flatMap_right Tag.entries
  have hroom' : (mapEntries tags').length ≤ memoryMapSize := hentries.length_eq ▸ hroom
  have hexact : TotalsExact d.info := hinfo ▸ (totalsExact_iff hroom).mpr hagrees
  have hexact' : TotalsExact d'.info := hinfo' ▸ (totalsExact_iff hroom').mpr hagrees'
  refine ⟨d', hhalts', hexact.perm hexact' ?_⟩
  rw [hinfo, hinfo', effects_entries_of_room hroom, effects_entries_of_room hroom']
  exact hentries

def mapFirst : Mem := bootInfo [64, 0, 6, 40, 24, 0, 0x100000, 0, 0x7EE0000, 0, 1, 0, 3, 8, 0, 8]

def mapLast : Mem := bootInfo [64, 0, 3, 8, 6, 40, 24, 0, 0x100000, 0, 0x7EE0000, 0, 1, 0, 0, 8]

theorem mapFirst_wellFormed : WellFormed mapFirst 0x10000 [.mmap 24 [usable], .other 3 8] where
  pos := by decide
  aligned := by decide
  fits := by decide
  layout := .cons (usable_at (by decide) rfl) (.cons (by rw [Tag.At]; decide)
    (.last (by decide) (by decide)))

theorem mapLast_wellFormed : WellFormed mapLast 0x10000 [.other 3 8, .mmap 24 [usable]] where
  pos := by decide
  aligned := by decide
  fits := by decide
  layout := .cons (by rw [Tag.At]; decide)
    (.cons (usable_at (by decide) rfl) (.last (by decide) (by decide)))

/-- Without BASIC_MEMINFO both orders give the same, exact totals. -/
theorem totals_exact_mapFirst : ∃ d d',
    HaltsAt (detectStep mapFirst (stop mapFirst 0x10000))
      (memoryDetect mapFirst 0x10000 ⟨emptyInfo, []⟩) (.done d) ∧
    HaltsAt (detectStep mapLast (stop mapLast 0x10000))
      (memoryDetect mapLast 0x10000 ⟨emptyInfo, []⟩) (.done d') ∧
    TotalsExact d.info ∧ d.info.totalMemory = d'.info.totalMemory := by
  obtain ⟨d, hhalts, hexact, horder⟩ :=
    totals_exact_iff mapFirst_wellFormed (by decide) ⟨emptyInfo, []⟩
  have hfirst : BasicAgrees [.mmap 24 [usable], .other 3 8] :=
    basicAgrees_of_none fun tag htag => by
      simp only [List.mem_cons, List.not_mem_nil, or_false] at htag
      rcases htag with rfl | rfl <;> exact not_false
  have hlast : BasicAgrees [.other 3 8, .mmap 24 [usable]] :=
    basicAgrees_of_none fun tag htag => by
      simp only [List.mem_cons, List.not_mem_nil, or_false] at htag
      rcases htag with rfl | rfl <;> exact not_false
  obtain ⟨d', hhalts', htotal, -⟩ := horder mapLast 0x10000 _ ⟨emptyInfo, []⟩ mapLast_wellFormed
    (List.Perm.swap _ _ _) hfirst hlast
  exact ⟨d, d', hhalts, hhalts', hexact.mpr hfirst, htotal⟩

/-- The map is counted in addition to the same memory of the BASIC_MEMINFO tag. -/
theorem basicFirst_totals : ∃ d, HaltsAt (detectStep basicFirst (stop basicFirst 0x10000))
    (memoryDetect basicFirst 0x10000 ⟨emptyInfo, []⟩) (.done d) ∧ ¬TotalsExact d.info := by
  obtain ⟨d, hinfo, hhalts⟩ := basicFirst_wellFormed.halts ⟨emptyInfo, []⟩
  refine ⟨d, hhalts, fun hexact => ?_⟩
  rw [hinfo, totalsExact_iff (by decide)] at hexact
  have hfirst := (hexact [] 16 639 129920 [.mmap 24 [usable]] rfl (by simp [Tag.IsBasicMeminfo])).1
  exact absurd hfirst (by decide)

/-! ## BASIC_MEMINFO alone -/

def Tag.isMemory : Tag → Bool
  | .mmap _ _ => true
  | .basicMeminfo _ _ _ => true
  | .other _ _ => false

theorem effects_filter (tags : List Tag) (info : MemoryInfo) :
    tags.foldl Tag.effect info = (tags.filter Tag.isMemory).foldl Tag.effect info := by
  rw [List.foldl_filter]
  congr 1
  funext info tag
  cases tag with
  | mmap size entries => rfl
  | basicMeminfo size lower upper => rfl
  | other type size => rfl

/-- A product that wraps is never made up for by the other. -/
theorem basic_eq_iff (lower upper : Nat) :
    u32 (lower * 1024) + u32 (upper * 1024) = 1024 * (lower + upper) ↔
      lower < 2 ^ 22 ∧ upper < 2 ^ 22 := by
  dsimp only [u32]
  omega

/-- Both totals are the sum of the two sizes exactly when either is below 4 GiB. -/
theorem basic_totals_iff {m : Mem} {multibootInfo size lower upper : Nat} {tags : List Tag}
    (h : WellFormed m multibootInfo tags)
    (hbasic : tags.filter Tag.isMemory = [.basicMeminfo size lower upper]) (before : Detection) :
    ∃ d, HaltsAt (detectStep m (stop m multibootInfo)) (memoryDetect m multibootInfo before)
        (.done d) ∧
      (d.info.totalMemory = 1024 * (lower + upper) ∧
        d.info.availableMemory = 1024 * (lower + upper) ↔ lower < 2 ^ 22 ∧ upper < 2 ^ 22) := by
  obtain ⟨d, hinfo, hhalts⟩ := h.halts before
  refine ⟨d, hhalts, ?_⟩
  rw [effects_filter, hbasic] at hinfo
  rw [hinfo, ← basic_eq_iff]
  exact and_self_iff

def basicOnly : Mem := bootInfo [40, 0, 3, 8, 4, 16, 640, 4194304, 0, 8]

theorem basicOnly_wellFormed :
    WellFormed basicOnly 0x10000 [.other 3 8, .basicMeminfo 16 640 4194304] where
  pos := by decide
  aligned := by decide
  fits := by decide
  layout := .cons (by rw [Tag.At]; decide) (.cons (by rw [Tag.At]; decide)
    (.last (by decide) (by decide)))

/-- Of 4 GiB above the first megabyte nothing is left: 640 KiB are reported. -/
theorem basic_totals_failure :
    (∃ d, HaltsAt (detectStep basicOnly (stop basicOnly 0x10000))
        (memoryDetect basicOnly 0x10000 ⟨emptyInfo, []⟩) (.done d) ∧
      d.info.totalMemory = 1024 * 640 ∧ d.info.availableMemory = 1024 * 640) ∧
    ¬∀ (m : Mem) (multibootInfo size lower upper : Nat) (tags : List Tag) (before : Detection),
      WellFormed m multibootInfo tags →
        tags.filter Tag.isMemory = [.basicMeminfo size lower upper] →
          ∃ d, HaltsAt (detectStep m (stop m multibootInfo)) (memoryDetect m multibootInfo before)
              (.done d) ∧
            d.info.totalMemory = 1024 * (lower + upper) ∧
              d.info.availableMemory = 1024 * (lower + upper) := by
  obtain ⟨d, hinfo, hhalts⟩ := basicOnly_wellFormed.halts ⟨emptyInfo, []⟩
  rw [effects_filter] at hinfo
  have htotal : d.info.totalMemory = 1024 * 640 := by
    rw [hinfo]
    decide
  have havailable : d.info.availableMemory = 1024 * 640 := by
    rw [hinfo]
    decide
  refine ⟨⟨d, hhalts, htotal, havailable⟩, fun hclaim => ?_⟩
  obtain ⟨d', hhalts', htotal', -⟩ := hclaim basicOnly 0x10000 16 640 4194304 _ ⟨emptyInfo, []⟩
    basicOnly_wellFormed rfl
  obtain rfl := Detect.done.inj (hhalts.unique hhalts')
  rw [htotal] at htotal'
  exact absurd htotal' (by decide)

theorem basic_totals_basicOnly : ∃ d,
    HaltsAt (detectStep basicOnly (stop basicOnly 0x10000))
      (memoryDetect basicOnly 0x10000 ⟨emptyInfo, []⟩) (.done d) ∧
    (d.info.totalMemory = 1024 * (640 + 4194304) ∧
      d.info.availableMemory = 1024 * (640 + 4194304) ↔ 640 < 2 ^ 22 ∧ 4194304 < 2 ^ 22) :=
  basic_totals_iff basicOnly_wellFormed rfl ⟨emptyInfo, []⟩

end AlvOS.Multiboot
