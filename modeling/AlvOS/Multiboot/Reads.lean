import AlvOS.Multiboot.Walk

/-! What `memory_detect` reads.  The loop condition looks at the type of a tag before it
compares the address with the end, and nothing is compared with the end after that; so the
reads stay inside the structure exactly when the tags themselves do. -/

namespace AlvOS.Multiboot
open ByteMemory Word Memory Machine

/-- All that the machine reads from `s` on lies from `lo` up to `stop`. -/
def ReadsWithin (m : Mem) (lo stop : Nat) (s : Detect) : Prop :=
  ∀ s', Reaches (detectStep m stop) s s' → ∀ r ∈ detectReads m stop s', lo ≤ r.1 ∧ r.1 + r.2 ≤ stop

def mmapEntrySize : Nat := 24

/-- Each entry that is copied to the table lies in its map tag. -/
def RecordsWithin (m : Mem) (stop : Nat) (s : Detect) : Prop :=
  ∀ t e d, Reaches (detectStep m stop) s (.entry t e d) → e < t + tagSize m t →
    d.info.entries.length < memoryMapSize → t + 16 ≤ e ∧ e + mmapEntrySize ≤ t + tagSize m t

section Congr
variable {m m' : Mem} {lo stop t : Nat} {d : Detection}

theorem mem_reads_size (hopen : TagOpen m stop t) (hmap : tagType m t ≠ tagTypeMmap) :
    (t + 4, 4) ∈ detectReads m stop (.tag t d) := by
  rw [detectReads, if_pos hopen, if_neg hmap]
  split_ifs <;> simp

theorem mem_reads_meminfo (hopen : TagOpen m stop t) (hmeminfo : tagType m t = tagTypeBasicMeminfo) :
    (t + 8, 4) ∈ detectReads m stop (.tag t d) ∧ (t + 12, 4) ∈ detectReads m stop (.tag t d) := by
  have hmap : tagType m t ≠ tagTypeMmap := hmeminfo ▸ (by decide)
  rw [detectReads, if_pos hopen, if_neg hmap, if_pos hmeminfo]
  simp

theorem mem_reads_entrySize {e : Nat} (he : e < t + tagSize m t) :
    (t + 8, 4) ∈ detectReads m stop (.entry t e d) := by
  rw [detectReads, if_pos he]
  apply List.mem_cons_of_mem
  apply List.mem_append_right
  exact List.mem_singleton_self _

theorem mem_reads_entry (stop : Nat) {e : Nat} (he : e < t + tagSize m t)
    (hroom : d.info.entries.length < memoryMapSize) :
    (e, 8) ∈ detectReads m stop (.entry t e d) ∧ (e + 8, 8) ∈ detectReads m stop (.entry t e d) ∧
      (e + 16, 4) ∈ detectReads m stop (.entry t e d) := by
  rw [detectReads, if_pos he, if_pos hroom]
  simp

theorem entry_of_full (hfull : ¬d.info.entries.length < memoryMapSize) (e : MemoryMapEntry) :
    d.entry e = d := by
  have hquiet : ¬d.info.entries.length < 5 := fun h => hfull (h.trans (by decide))
  rw [Detection.entry, recordEntry, dif_neg hfull, if_neg hquiet]

theorem detectStep_congr {s : Detect}
    (h : ∀ r ∈ detectReads m stop s, Set.EqOn m m' (Set.Ico r.1 (r.1 + r.2))) :
    detectStep m' stop s = detectStep m stop s := by
  have hfield : ∀ a k, (a, k) ∈ detectReads m stop s → readLE m' a k = readLE m a k :=
    fun a k hread => (readLE_congr (h (a, k) hread)).symm
  cases s with
  | tag t d =>
    have htype : tagType m' t = tagType m t := hfield t 4 List.mem_cons_self
    have hiff : TagOpen m' stop t ↔ TagOpen m stop t := by rw [TagOpen, TagOpen, htype]
    by_cases hopen : TagOpen m stop t
    · by_cases hmap : tagType m t = tagTypeMmap
      · rw [detectStep_tag_map hopen hmap, detectStep_tag_map (hiff.mpr hopen) (htype.trans hmap)]
      · have hsize : tagSize m' t = tagSize m t := hfield (t + 4) 4 (mem_reads_size hopen hmap)
        have hother : d.otherTag m' t = d.otherTag m t := by
          rw [Detection.otherTag, Detection.otherTag, htype]
          by_cases hmeminfo : tagType m t = tagTypeBasicMeminfo
          · obtain ⟨hmem, hmem'⟩ := mem_reads_meminfo (d := d) hopen hmeminfo
            have hlower : memLower m' t = memLower m t := hfield (t + 8) 4 hmem
            have hupper : memUpper m' t = memUpper m t := hfield (t + 12) 4 hmem'
            rw [if_pos hmeminfo, if_pos hmeminfo, Detection.basicMeminfo, Detection.basicMeminfo,
              basicMemory, basicMemory, hlower, hupper]
          · -- the strings are printed by their address
            rw [if_neg hmeminfo, if_neg hmeminfo]
        have hmap' : tagType m' t ≠ tagTypeMmap := htype ▸ hmap
        rw [detectStep_tag_other hopen hmap, detectStep_tag_other (hiff.mpr hopen) hmap', hother,
          tagStride, tagStride, hsize]
    · rw [detectStep_tag_closed hopen, detectStep_tag_closed (mt hiff.mp hopen)]
  | entry t e d =>
    have hsize : tagSize m' t = tagSize m t := hfield (t + 4) 4 List.mem_cons_self
    by_cases he : e < t + tagSize m t
    · have hentrySize : entrySize m' t = entrySize m t := hfield (t + 8) 4 (mem_reads_entrySize he)
      have hentry : d.entry (entryAt m' e) = d.entry (entryAt m e) := by
        by_cases hroom : d.info.entries.length < memoryMapSize
        · obtain ⟨hbase, hlength, htype⟩ := mem_reads_entry stop he hroom
          simp only [entryAt, hfield _ _ hbase, hfield _ _ hlength, hfield _ _ htype]
        · rw [entry_of_full hroom, entry_of_full hroom]
      rw [detectStep_entry he, detectStep_entry (hsize ▸ he), hentrySize, hentry]
    · rw [detectStep_entry_end he, detectStep_entry_end (hsize ▸ he), tagStride, tagStride, hsize]
  | done d => rfl

/-- What `memory_detect` makes of a structure that it does not leave depends on that
structure only. -/
theorem reaches_congr {s s' : Detect} (hreads : ReadsWithin m lo stop s)
    (h : Set.EqOn m m' (Set.Ico lo stop)) (hreach : Reaches (detectStep m stop) s s') :
    Reaches (detectStep m' stop) s s' := by
  induction hreach with
  | refl => exact .refl
  | @tail a b hprev hstep ih =>
    refine ih.tail ?_
    rw [detectStep_congr (m := m), hstep]
    intro r hr x hx
    obtain ⟨hlo, hhi⟩ := hreads a hprev r hr
    exact h ⟨hlo.trans hx.1, hx.2.trans_le hhi⟩

end Congr

/-- The entries of map tag `t` that there is room for, after `c` others, lie in the tag, and
their fields in the structure. -/
def EntriesFit (m : Mem) (stop t c : Nat) : Prop :=
  ∀ i, 16 + i * entrySize m t < tagSize m t → c + i < memoryMapSize →
    t + 16 + i * entrySize m t + 20 ≤ stop ∧
      16 + i * entrySize m t + mmapEntrySize ≤ tagSize m t

/-- Tag `t`, which `c` recorded entries precede, lies in the structure as far as it is read:
its type, its header if it is open, and the fields that its handler uses. -/
structure TagFits (m : Mem) (stop t c : Nat) : Prop where
  type : t + 4 ≤ stop
  header : TagOpen m stop t → t + 8 ≤ stop
  meminfo : TagOpen m stop t → tagType m t = tagTypeBasicMeminfo → t + 16 ≤ stop
  entrySize : TagOpen m stop t → tagType m t = tagTypeMmap → 16 < tagSize m t → t + 12 ≤ stop
  entries : TagOpen m stop t → tagType m t = tagTypeMmap → EntriesFit m stop t c

section Reads
variable {m : Mem} {lo start stop t c : Nat} {d : Detection}

theorem Visits.start_le (h : Visits m stop start t c) : start ≤ t := by
  induction h with
  | first => exact Nat.le_refl _
  | other _ _ _ ih => exact Nat.le_add_right_of_le ih
  | map _ _ _ _ ih => exact Nat.le_add_right_of_le ih

theorem TagFits.reads (h : TagFits m stop t c) (hlo : lo ≤ t) :
    ∀ r ∈ detectReads m stop (.tag t d), lo ≤ r.1 ∧ r.1 + r.2 ≤ stop := by
  have htype := h.type
  intro r hr
  rw [detectReads] at hr
  split_ifs at hr with hopen hmap hmeminfo
  · obtain rfl := List.mem_singleton.mp hr
    exact ⟨hlo, htype⟩
  · have hheader := h.header hopen
    have hfields := h.meminfo hopen hmeminfo
    simp only [List.mem_cons, List.not_mem_nil, or_false] at hr
    rcases hr with rfl | rfl | rfl | rfl <;> dsimp only <;> omega
  · have hheader := h.header hopen
    simp only [List.mem_cons, List.not_mem_nil, or_false] at hr
    rcases hr with rfl | rfl <;> dsimp only <;> omega
  · obtain rfl := List.mem_singleton.mp hr
    exact ⟨hlo, htype⟩

theorem AtEntry.fits {e i : Nat} (hat : AtEntry m stop start t e c i) (h : TagFits m stop t c)
    (hlength : d.info.entries.length = min memoryMapSize (c + i)) (he : e < t + tagSize m t)
    (hroom : d.info.entries.length < memoryMapSize) :
    e + 20 ≤ stop ∧ e + mmapEntrySize ≤ t + tagSize m t := by
  have hpointer := hat.pointer
  obtain ⟨hfields, hentry⟩ := h.entries hat.isOpen hat.isMap i (by omega) (by omega)
  omega

theorem AtEntry.reads {e i : Nat} (hat : AtEntry m stop start t e c i) (h : TagFits m stop t c)
    (hlength : d.info.entries.length = min memoryMapSize (c + i)) (hlo : lo ≤ t) :
    ∀ r ∈ detectReads m stop (.entry t e d), lo ≤ r.1 ∧ r.1 + r.2 ≤ stop := by
  have hheader := h.header hat.isOpen
  have hpointer := hat.pointer
  intro r hr
  rw [detectReads] at hr
  split_ifs at hr with he hroom
  · obtain ⟨hfields, -⟩ := hat.fits h hlength he hroom
    have hsize := h.entrySize hat.isOpen hat.isMap (by omega)
    simp only [List.mem_cons, List.cons_append, List.nil_append, List.not_mem_nil, or_false] at hr
    rcases hr with rfl | rfl | rfl | rfl | rfl <;> dsimp only <;> omega
  · have hsize := h.entrySize hat.isOpen hat.isMap (by omega)
    simp only [List.mem_cons, List.nil_append, List.not_mem_nil, or_false] at hr
    rcases hr with rfl | rfl <;> dsimp only <;> omega
  · simp only [List.mem_cons, List.not_mem_nil, or_false] at hr
    rcases hr with rfl | rfl <;> dsimp only <;> omega

theorem within_of_fits (hd : d.info.entries = []) (hlo : lo ≤ start)
    (h : ∀ t c, Visits m stop start t c → TagFits m stop t c) :
    ReadsWithin m lo stop (.tag start d) ∧ RecordsWithin m stop (.tag start d) := by
  constructor
  · intro s' hreach
    have hfollows := reaches_follows hreach (follows_start hd)
    cases s' with
    | tag t d' => exact (h t _ hfollows).reads (hlo.trans hfollows.start_le)
    | entry t e d' =>
      obtain ⟨c, i, hat, hlength⟩ := hfollows
      exact hat.reads (h t c hat.visits) hlength (hlo.trans hat.visits.start_le)
    | done d' => exact fun r hr => absurd hr List.not_mem_nil
  · intro t e d' hreach he hroom
    obtain ⟨c, i, hat, hlength⟩ : Detect.Follows m stop start (.entry t e d') :=
      reaches_follows hreach (follows_start hd)
    have hpointer := hat.pointer
    exact ⟨by omega, (hat.fits (h t c hat.visits) hlength he hroom).2⟩

theorem fits_of_within (hd : d.info.entries = []) (hreads : ReadsWithin m lo stop (.tag start d))
    (hrecords : RecordsWithin m stop (.tag start d)) (hvisits : Visits m stop start t c) :
    TagFits m stop t c := by
  obtain ⟨d', hlength, hreach⟩ := hvisits.reaches hd
  have htype : t + 4 ≤ stop := (hreads _ hreach (t, 4) (List.mem_cons_self)).2
  by_cases hopen : TagOpen m stop t
  · by_cases hmap : tagType m t = tagTypeMmap
    · have hfirst := hreach.tail (detectStep_tag_map hopen hmap)
      refine ⟨htype, fun _ => ?_, fun _ hmeminfo => ?_, fun _ _ hsize => ?_, fun _ _ i hi hroom => ?_⟩
      · exact (hreads _ hfirst (t + 4, 4) (List.mem_cons_self)).2
      · exact absurd (hmap.symm.trans hmeminfo) (by decide)
      · exact (hreads _ hfirst (t + 8, 4) (mem_reads_entrySize (by omega))).2
      · -- entry `i` is reached past the ones before it, which begin in the tag as well
        have hbefore : ∀ j < i, 16 + j * entrySize m t < tagSize m t := by
          intro j hj
          have hle := Nat.mul_le_mul_right (entrySize m t) hj.le
          omega
        obtain ⟨d'', hlength', hentry⟩ := reaches_entry hreach hopen hmap hbefore
        have hin : t + 16 + i * entrySize m t < t + tagSize m t := by omega
        have htable : d''.info.entries.length < memoryMapSize := by omega
        have hrecord := (hrecords _ _ _ hentry hin htable).2
        have hread := (hreads _ hentry _ (mem_reads_entry stop hin htable).2.2).2
        dsimp only at hread
        exact ⟨by omega, by omega⟩
    · refine ⟨htype, fun _ => ?_, fun _ hmeminfo => ?_, fun _ h => absurd h hmap,
        fun _ h => absurd h hmap⟩
      · exact (hreads _ hreach _ (mem_reads_size hopen hmap)).2
      · exact (hreads _ hreach _ (mem_reads_meminfo hopen hmeminfo).2).2
  · exact ⟨htype, fun h => absurd h hopen, fun h => absurd h hopen, fun h => absurd h hopen,
      fun h => absurd h hopen⟩

end Reads

/-- `memory_detect` reads inside the structure only, and copies entries that lie in their tag
only, exactly when the first tag does not wrap and every tag that it visits fits. -/
theorem detect_within_iff {m : Mem} {multibootInfo : Nat} (hpos : multibootInfo ≠ 0)
    (haligned : multibootInfo &&& 7 = 0) (h32 : multibootInfo < 2 ^ 32) (before : Detection) :
    (ReadsWithin m multibootInfo (stop m multibootInfo) (memoryDetect m multibootInfo before) ∧
      RecordsWithin m (stop m multibootInfo) (memoryDetect m multibootInfo before)) ↔
    multibootInfo + 8 < 2 ^ 32 ∧
      ∀ t c, Visits m (stop m multibootInfo) (multibootInfo + 8) t c →
        TagFits m (stop m multibootInfo) t c := by
  obtain ⟨d, hd, hdetect⟩ := memoryDetect_eq (m := m) hpos haligned before
  have hentries : d.info.entries = [] := by rw [hd]; rfl
  rw [hdetect]
  constructor
  · rintro ⟨hreads, hrecords⟩
    have hfirst : multibootInfo ≤ u32 (multibootInfo + 8) :=
      (hreads _ .refl (u32 (multibootInfo + 8), 4) List.mem_cons_self).1
    have hwrap : multibootInfo + 8 < 2 ^ 32 := by
      rw [u32] at hfirst
      omega
    rw [u32, Nat.mod_eq_of_lt hwrap] at hreads hrecords
    exact ⟨hwrap, fun t c hvisits => fits_of_within hentries hreads hrecords hvisits⟩
  · rintro ⟨hwrap, hfits⟩
    rw [u32, Nat.mod_eq_of_lt hwrap]
    exact within_of_fits hentries (Nat.le_add_right _ _) hfits

theorem detect_within_oneRegion :
    ReadsWithin oneRegion 0x10000 (stop oneRegion 0x10000)
      (memoryDetect oneRegion 0x10000 ⟨emptyInfo, []⟩) ∧
    RecordsWithin oneRegion (stop oneRegion 0x10000)
      (memoryDetect oneRegion 0x10000 ⟨emptyInfo, []⟩) := by
  refine (detect_within_iff (by decide) (by decide) (by decide) ⟨emptyInfo, []⟩).mpr
    ⟨by decide, fun t c hvisits => ?_⟩
  rcases oneRegion_chain hvisits.chain with rfl | rfl
  · refine ⟨by decide, fun _ => by decide, fun _ => by decide, fun _ _ => by decide,
      fun _ _ i hi _ => ?_⟩
    have htag : tagSize oneRegion 0x10008 = 40 := by decide
    have hentry : entrySize oneRegion 0x10008 = 24 := by decide
    rw [htag, hentry] at hi ⊢
    obtain rfl : i = 0 := by omega
    decide
  · have hclosed : ¬TagOpen oneRegion (stop oneRegion 0x10000) 0x10030 := by decide
    exact ⟨by decide, fun h => absurd h hclosed, fun h => absurd h hclosed,
      fun h => absurd h hclosed, fun h => absurd h hclosed⟩

/-- Without an END tag the type of the tag behind the end is read. -/
theorem missing_end_overread : ¬ReadsWithin (bootInfo [16, 0, 3, 8]) 0x10000
    (stop (bootInfo [16, 0, 3, 8]) 0x10000)
    (memoryDetect (bootInfo [16, 0, 3, 8]) 0x10000 ⟨emptyInfo, []⟩) := by
  have hpos : 0x10000 ≠ 0 := by decide
  obtain ⟨d, -, hstart⟩ := memoryDetect_eq (m := bootInfo [16, 0, 3, 8]) hpos (by decide)
    ⟨emptyInfo, []⟩
  rw [hstart]
  intro hreads
  have hopen : TagOpen (bootInfo [16, 0, 3, 8]) (stop (bootInfo [16, 0, 3, 8]) 0x10000)
      (u32 (0x10000 + 8)) := by decide
  have hnext := Reaches.single (detectStep_tag_other (d := d) hopen (by decide))
  have hlast := (hreads _ hnext _ List.mem_cons_self).2
  exact absurd hlast (by decide)

end AlvOS.Multiboot
