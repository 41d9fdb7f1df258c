import Mathlib.Data.List.Induction
import AlvOS.Lib.ByteMemory
import AlvOS.Lib.Word

/-! The interrupt descriptor table: what kernel.c and isr.c write to it byte by byte, and what
the processor reads there for each vector. -/

namespace AlvOS.Interrupts
open ByteMemory Set

/-! ## kernel.c -/

inductive EntryField
  | offsetLow | selector | ist | typeAttr | offsetMid | offsetHigh | zero
deriving DecidableEq

/-- The packed `struct idt_entry`. -/
def idtEntry : Record EntryField where
  offset
    | .offsetLow => 0
    | .selector => 2
    | .ist => 4
    | .typeAttr => 5
    | .offsetMid => 6
    | .offsetHigh => 8
    | .zero => 12
  width
    | .offsetLow => 2
    | .selector => 2
    | .ist => 1
    | .typeAttr => 1
    | .offsetMid => 2
    | .offsetHigh => 4
    | .zero => 4
  size := 16
  within := by rintro (_ | _ | _ | _ | _ | _ | _) <;> decide
  apart := by
    rintro (_ | _ | _ | _ | _ | _ | _) (_ | _ | _ | _ | _ | _ | _) <;> decide

inductive PtrField
  | limit | base
deriving DecidableEq

/-- The packed `struct idt_ptr`. -/
def idtPtr : Record PtrField where
  offset
    | .limit => 0
    | .base => 2
  width
    | .limit => 2
    | .base => 8
  size := 10
  within := by rintro (_ | _) <;> decide
  apart := by rintro (_ | _) (_ | _) <;> decide

def idtEntries : Nat := 256

structure Tables where
  idt : Nat
  idtp : Nat
  idt_le : idt + 16 * idtEntries ≤ 2 ^ 64
  apart : idt + 16 * idtEntries ≤ idtp ∨ idtp + 10 ≤ idt

def entryFields : List EntryField :=
  [.offsetLow, .selector, .ist, .typeAttr, .offsetMid, .offsetHigh, .zero]

def storeEntry (m : Mem) (entry : Nat) (v : EntryField → Nat) : Mem :=
  entryFields.foldl (fun m f => idtEntry.store m entry f (v f)) m

def entryAt (idt num : Nat) : Nat := idt + idtEntry.size * num

def gateFields (handler : UInt64) (selector : UInt16) (flags : UInt8) : EntryField → Nat
  | .offsetLow => (handler &&& 0xFFFF).toNat
  | .selector => selector.toNat
  | .ist => 0
  | .typeAttr => flags.toNat
  | .offsetMid => ((handler >>> 16) &&& 0xFFFF).toNat
  | .offsetHigh => ((handler >>> 32) &&& 0xFFFFFFFF).toNat
  | .zero => 0

def idtSetGate (m : Mem) (idt : Nat) (num : UInt8) (handler : UInt64) (selector : UInt16)
    (flags : UInt8) : Mem :=
  storeEntry m (entryAt idt num.toNat) (gateFields handler selector flags)

/-- The loop of `idt_install` over the first `n` entries. -/
def clearEntries (m : Mem) (idt : Nat) : Nat → Mem
  | 0 => m
  | n + 1 => storeEntry (clearEntries m idt n) (entryAt idt n) fun _ => 0

/-- The register that `lidt` loads from memory. -/
structure Idtr where
  limit : Nat
  base : Nat

def idtLoad (m : Mem) (idtp : Nat) : Idtr := ⟨idtPtr.load m idtp .limit, idtPtr.load m idtp .base⟩

def idtInstall (m : Mem) (t : Tables) : Mem × Idtr :=
  let m := idtPtr.store m t.idtp .limit (idtEntry.size * idtEntries - 1)
  let m := idtPtr.store m t.idtp .base t.idt
  let m := clearEntries m t.idt idtEntries
  (m, idtLoad m t.idtp)

/-! ## isr.c -/

structure GateCall where
  num : UInt8
  handler : UInt64
  selector : UInt16
  flags : UInt8

def GateCall.run (idt : Nat) (m : Mem) (c : GateCall) : Mem :=
  idtSetGate m idt c.num c.handler c.selector c.flags

/-- The calls of `isr_install`, with the addresses of the stubs. -/
def isrInstallCalls (isr irq : Nat → UInt64) : List GateCall :=
  ((List.range 32).map fun n => ⟨.ofNat n, isr n, 0x08, 0x8E⟩) ++
    (List.range 16).map fun n => ⟨.ofNat (32 + n), irq n, 0x08, 0x8E⟩

def setGates (m : Mem) (idt : Nat) (calls : List GateCall) : Mem :=
  calls.foldl (GateCall.run idt) m

/-! ## The processor -/

structure Descriptor where
  offset : Nat
  selector : Nat
  ist : Nat
  gateType : Nat
  dpl : Nat
  present : Bool
deriving DecidableEq

def readDescriptor (m : Mem) (a : Nat) : Descriptor where
  offset := readLE m a 2 + 2 ^ 16 * readLE m (a + 6) 2 + 2 ^ 32 * readLE m (a + 8) 4
  selector := readLE m (a + 2) 2
  ist := readLE m (a + 4) 1 % 8
  gateType := readLE m (a + 5) 1 % 16
  dpl := readLE m (a + 5) 1 / 32 % 4
  present := readLE m (a + 5) 1 / 128 % 2 = 1

def Descriptor.Usable (d : Descriptor) : Prop :=
  d.present = true ∧ (d.gateType = 14 ∨ d.gateType = 15)

instance (d : Descriptor) : Decidable d.Usable := inferInstanceAs (Decidable (_ ∧ _))

/-- Where vector `v` leads: nothing beyond the limit or where there is no gate present. -/
def Idtr.deliver (r : Idtr) (m : Mem) (v : UInt8) : Option Descriptor :=
  if 16 * v.toNat + 15 ≤ r.limit then
    let d := readDescriptor m (r.base + 16 * v.toNat)
    if d.Usable then some d else none
  else none

def GateCall.descriptor (c : GateCall) : Descriptor where
  offset := c.handler.toNat
  selector := c.selector.toNat
  ist := 0
  gateType := c.flags.toNat % 16
  dpl := c.flags.toNat / 32 % 4
  present := c.flags.toNat / 128 % 2 = 1

def tableBytes (t : Tables) : Set Nat := Ico t.idt (t.idt + 16 * idtEntries)

section Entry
variable {m : Mem} {a b : Nat} {v : EntryField → Nat} {f : EntryField}

theorem storeEntry_apply {x : Nat} (h : x ∉ Ico a (a + 16)) : storeEntry m a v x = m x := by
  have hfold : ∀ fs : List EntryField,
      fs.foldl (fun m f => idtEntry.store m a f (v f)) m x = m x := fun fs => by
    induction fs generalizing m with
    | nil => rfl
    | cons f fs ih => exact ih.trans (idtEntry.store_apply_of_notMem h)
  exact hfold entryFields

theorem load_storeEntry (hv : ∀ f, v f < 256 ^ idtEntry.width f) :
    idtEntry.load (storeEntry m a v) a f = v f := by
  have hkeep : ∀ (fs : List EntryField) (m : Mem), f ∉ fs →
      idtEntry.load (fs.foldl (fun m f => idtEntry.store m a f (v f)) m) a f =
        idtEntry.load m a f := fun fs => by
    induction fs with
    | nil => exact fun _ _ => rfl
    | cons g fs ih =>
      intro m hf
      rw [List.mem_cons, not_or] at hf
      exact (ih _ hf.2).trans (idtEntry.load_store_of_ne (Ne.symm hf.1))
  have hset : ∀ (fs : List EntryField) (m : Mem), f ∈ fs → fs.Nodup →
      idtEntry.load (fs.foldl (fun m f => idtEntry.store m a f (v f)) m) a f = v f := fun fs => by
    induction fs with
    | nil => exact fun _ hf => absurd hf List.not_mem_nil
    | cons g fs ih =>
      intro m hf hnodup
      obtain ⟨hfresh, hnodup⟩ := List.nodup_cons.mp hnodup
      rcases List.mem_cons.mp hf with rfl | hf
      · exact (hkeep fs _ hfresh).trans (idtEntry.load_store_self (hv f))
      · exact ih _ hf hnodup
  refine hset entryFields m ?_ (by decide)
  cases f <;> decide

theorem readDescriptor_eq (m : Mem) (a : Nat) : readDescriptor m a =
    { offset := idtEntry.load m a .offsetLow + 2 ^ 16 * idtEntry.load m a .offsetMid +
        2 ^ 32 * idtEntry.load m a .offsetHigh
      selector := idtEntry.load m a .selector
      ist := idtEntry.load m a .ist % 8
      gateType := idtEntry.load m a .typeAttr % 16
      dpl := idtEntry.load m a .typeAttr / 32 % 4
      present := idtEntry.load m a .typeAttr / 128 % 2 = 1 } := rfl

theorem gateFields_lt (handler : UInt64) (selector : UInt16) (flags : UInt8) (f : EntryField) :
    gateFields handler selector flags f < 256 ^ idtEntry.width f := by
  have hhandler := handler.toNat_lt
  cases f with
  | offsetLow => exact Nat.lt_of_le_of_lt Nat.and_le_right (by decide)
  | selector => exact selector.toNat_lt
  | typeAttr => exact flags.toNat_lt
  | offsetMid => exact Nat.lt_of_le_of_lt Nat.and_le_right (by decide)
  | offsetHigh => exact Nat.lt_of_le_of_lt Nat.and_le_right (by decide)
  | ist => exact Nat.pow_pos (by decide)
  | zero => exact Nat.pow_pos (by decide)

theorem gateFields_offset (handler : UInt64) (selector : UInt16) (flags : UInt8) :
    gateFields handler selector flags .offsetLow +
      2 ^ 16 * gateFields handler selector flags .offsetMid +
      2 ^ 32 * gateFields handler selector flags .offsetHigh = handler.toNat := by
  have hlow : (handler &&& 0xFFFF).toNat = handler.toNat % 2 ^ 16 :=
    Nat.and_two_pow_sub_one_eq_mod _ 16
  have hmid : ((handler >>> 16) &&& 0xFFFF).toNat = handler.toNat / 2 ^ 16 % 2 ^ 16 := by
    rw [← Nat.shiftRight_eq_div_pow]
    exact Nat.and_two_pow_sub_one_eq_mod _ 16
  have hhigh : ((handler >>> 32) &&& 0xFFFFFFFF).toNat = handler.toNat / 2 ^ 32 % 2 ^ 32 := by
    rw [← Nat.shiftRight_eq_div_pow]
    exact Nat.and_two_pow_sub_one_eq_mod _ 32
  have hlt := handler.toNat_lt
  simp only [gateFields]
  rw [hlow, hmid, hhigh]
  omega

theorem readDescriptor_set (m : Mem) (idt : Nat) (c : GateCall) :
    readDescriptor (c.run idt m) (entryAt idt c.num.toNat) = c.descriptor := by
  rw [readDescriptor_eq, GateCall.run, idtSetGate]
  simp only [load_storeEntry (gateFields_lt c.handler c.selector c.flags),
    gateFields_offset c.handler c.selector c.flags]
  rfl

theorem readDescriptor_clear (m : Mem) (a : Nat) :
    readDescriptor (storeEntry m a fun _ => 0) a = ⟨0, 0, 0, 0, 0, false⟩ := by
  have hzero : ∀ f, 0 < 256 ^ idtEntry.width f := fun f => Nat.pow_pos (by decide)
  rw [readDescriptor_eq]
  simp only [load_storeEntry hzero]
  rfl

theorem readDescriptor_congr {m m' : Mem} (h : EqOn m m' (Ico a (a + 16))) :
    readDescriptor m a = readDescriptor m' a := by
  rw [readDescriptor_eq, readDescriptor_eq]
  simp only [fun f => idtEntry.load_congr (f := f) h]

end Entry

/-! ## The table -/

/-- The last of the calls for vector `v`. -/
def lastCall (calls : List GateCall) (v : UInt8) : Option GateCall :=
  (calls.filter fun c => c.num = v).getLast?

def noGate : Descriptor := ⟨0, 0, 0, 0, 0, false⟩

section Table
variable {m : Mem} {idt x n : Nat} {calls : List GateCall} {v : UInt8} {t : Tables}

theorem entryAt_apart {i j : Nat} (h : i ≠ j) (hx : x ∈ Ico (entryAt idt i) (entryAt idt i + 16)) :
    x ∉ Ico (entryAt idt j) (entryAt idt j + 16) := by
  have hsize : idtEntry.size = 16 := rfl
  rw [entryAt, hsize, mem_Ico] at hx
  rw [entryAt, hsize, mem_Ico]
  omega

theorem entryAt_subset (hn : n < idtEntries) (hx : x ∈ Ico (entryAt t.idt n) (entryAt t.idt n + 16)) :
    x ∈ tableBytes t := by
  have hsize : idtEntry.size = 16 := rfl
  rw [entryAt, hsize, mem_Ico] at hx
  rw [tableBytes, mem_Ico]
  omega

theorem GateCall.run_apply (c : GateCall) (hx : x ∉ tableBytes t) : c.run t.idt m x = m x :=
  storeEntry_apply fun hin => hx (entryAt_subset c.num.toNat_lt hin)

theorem GateCall.run_other (c : GateCall) (h : c.num ≠ v) :
    readDescriptor (c.run idt m) (entryAt idt v.toNat) = readDescriptor m (entryAt idt v.toNat) := by
  have hne : v.toNat ≠ c.num.toNat := fun heq => h (UInt8.toNat.inj heq).symm
  exact readDescriptor_congr fun x hx => storeEntry_apply (entryAt_apart hne hx)

/-- A vector leads where the last call for it says; where there was none it is as before. -/
theorem readDescriptor_setGates (m : Mem) (idt : Nat) (calls : List GateCall) (v : UInt8) :
    readDescriptor (setGates m idt calls) (entryAt idt v.toNat) =
      ((lastCall calls v).map GateCall.descriptor).getD
        (readDescriptor m (entryAt idt v.toNat)) := by
  induction calls using List.reverseRecOn with
  | nil => rfl
  | append_singleton calls c ih =>
    rw [setGates, List.foldl_append, List.foldl_cons, List.foldl_nil, lastCall, List.filter_append]
    by_cases hc : c.num = v
    · subst hc
      rw [List.filter_cons_of_pos (by simp), List.filter_nil, List.getLast?_concat]
      exact readDescriptor_set _ _ c
    · rw [List.filter_cons_of_neg (by simpa using hc), List.filter_nil, List.append_nil]
      exact (c.run_other hc).trans ih

theorem setGates_apply (calls : List GateCall) (hx : x ∉ tableBytes t) :
    setGates m t.idt calls x = m x := by
  induction calls generalizing m with
  | nil => rfl
  | cons c calls ih => exact ih.trans (c.run_apply hx)

theorem clearEntries_apply (hn : n ≤ idtEntries) (hx : x ∉ tableBytes t) :
    clearEntries m t.idt n x = m x := by
  induction n with
  | zero => rfl
  | succ n ih =>
    rw [clearEntries, storeEntry_apply fun hin => hx (entryAt_subset (Nat.lt_of_succ_le hn) hin)]
    exact ih (Nat.le_of_succ_le hn)

theorem readDescriptor_clearEntries {k : Nat} (hk : k < n) :
    readDescriptor (clearEntries m idt n) (entryAt idt k) = noGate := by
  induction n with
  | zero => exact absurd hk (Nat.not_lt_zero k)
  | succ n ih =>
    rw [clearEntries]
    rcases Nat.lt_succ_iff_lt_or_eq.mp hk with hlt | rfl
    · rw [readDescriptor_congr fun x hx => storeEntry_apply (entryAt_apart hlt.ne hx)]
      exact ih hlt
    · exact readDescriptor_clear _ _

theorem idtInstall_register (m : Mem) (t : Tables) : (idtInstall m t).2 = ⟨4095, t.idt⟩ := by
  have hidt := t.idt_le
  have hapart : ∀ x ∈ idtPtr.bytes t.idtp, x ∉ tableBytes t := by
    intro x hx hin
    have hp := t.apart
    have hsize : idtPtr.size = 10 := rfl
    rw [Record.bytes, hsize, mem_Ico] at hx
    rw [tableBytes, mem_Ico] at hin
    omega
  have hentries : idtEntries = 256 := rfl
  have hload : ∀ f, idtPtr.load (idtInstall m t).1 t.idtp f = idtPtr.load
      (idtPtr.store (idtPtr.store m t.idtp .limit 4095) t.idtp .base t.idt) t.idtp f := fun f =>
    idtPtr.load_congr (fun x hx => clearEntries_apply (Nat.le_refl _) (hapart x hx)) f
  change idtLoad (idtInstall m t).1 t.idtp = _
  rw [idtLoad, hload, hload, idtPtr.load_store_of_ne (by decide), idtPtr.load_store_self (by decide),
    idtPtr.load_store_self]
  change t.idt < 2 ^ 64
  omega

theorem idtInstall_apply (hx : x ∉ tableBytes t) (hp : x ∉ idtPtr.bytes t.idtp) :
    (idtInstall m t).1 x = m x := by
  refine (clearEntries_apply (Nat.le_refl _) hx).trans ?_
  rw [idtPtr.store_apply_of_notMem hp, idtPtr.store_apply_of_notMem hp]

end Table

/-! ## Where the vectors lead -/

/-- `idt_install`, `isr_install` and any later calls of `idt_set_gate`. -/
def installed (m : Mem) (t : Tables) (isr irq : Nat → UInt64) (later : List GateCall) :
    Mem × Idtr :=
  let (m, r) := idtInstall m t
  (setGates (setGates m t.idt (isrInstallCalls isr irq)) t.idt later, r)

/-- The gate that `isr_install` sets up for `v`. -/
def bootGate (isr irq : Nat → UInt64) (v : UInt8) : Option GateCall :=
  if v.toNat < 32 then some ⟨v, isr v.toNat, 0x08, 0x8E⟩
  else if v.toNat < 48 then some ⟨v, irq (v.toNat - 32), 0x08, 0x8E⟩
  else none

section Boot
variable {calls : List GateCall} {c : GateCall} {v : UInt8} {isr irq : Nat → UInt64}

theorem lastCall_of_mem (hnodup : (calls.map GateCall.num).Nodup) (hc : c ∈ calls) :
    lastCall calls c.num = some c := by
  obtain ⟨pre, post, rfl⟩ := List.append_of_mem hc
  rw [List.map_append, List.map_cons, List.nodup_append, List.nodup_cons] at hnodup
  obtain ⟨-, ⟨hpost, -⟩, hpre⟩ := hnodup
  have hfilter : ∀ cs : List GateCall, c.num ∉ cs.map GateCall.num →
      cs.filter (fun d => d.num = c.num) = [] := fun cs hcs => by
    refine List.filter_eq_nil_iff.mpr fun d hd heq => hcs ?_
    exact of_decide_eq_true heq ▸ List.mem_map_of_mem hd
  have hbefore : c.num ∉ pre.map GateCall.num := fun h => hpre _ h _ (.head _) rfl
  rw [lastCall, List.filter_append, hfilter pre hbefore, List.filter_cons_of_pos (by simp),
    hfilter post hpost]
  rfl

theorem lastCall_isrInstallCalls (isr irq : Nat → UInt64) (v : UInt8) :
    lastCall (isrInstallCalls isr irq) v = bootGate isr irq v := by
  have hnums : (isrInstallCalls isr irq).map GateCall.num =
      (List.range 32).map UInt8.ofNat ++ (List.range 16).map fun n => UInt8.ofNat (32 + n) := by
    rw [isrInstallCalls, List.map_append, List.map_map, List.map_map]
    rfl
  have hnodup : ((isrInstallCalls isr irq).map GateCall.num).Nodup := by
    rw [hnums]
    decide
  rw [bootGate]
  split_ifs with hisr hirq
  · have hmem : (⟨v, isr v.toNat, 0x08, 0x8E⟩ : GateCall) ∈ isrInstallCalls isr irq :=
      List.mem_append_left _ (List.mem_map.mpr ⟨v.toNat, List.mem_range.mpr hisr, by simp⟩)
    exact lastCall_of_mem hnodup hmem
  · have hmem : (⟨v, irq (v.toNat - 32), 0x08, 0x8E⟩ : GateCall) ∈ isrInstallCalls isr irq :=
      List.mem_append_right _ (List.mem_map.mpr
        ⟨v.toNat - 32, List.mem_range.mpr (by omega), by
          rw [Nat.add_sub_cancel' (by omega), UInt8.ofNat_toNat]⟩)
    exact lastCall_of_mem hnodup hmem
  · rw [lastCall, List.filter_eq_nil_iff.mpr, List.getLast?_nil]
    intro c hc heq
    obtain rfl := of_decide_eq_true heq
    have hnum := List.mem_map_of_mem (f := GateCall.num) hc
    rw [hnums, List.mem_append, List.mem_map, List.mem_map] at hnum
    rcases hnum with ⟨n, hn, heq⟩ | ⟨n, hn, heq⟩
    all_goals
      have hsize : UInt8.size = 256 := rfl
      rw [List.mem_range] at hn
      rw [← heq, UInt8.toNat_ofNat_of_lt' (by omega)] at hirq
      omega

end Boot

/-- After the boot and any later calls of `idt_set_gate` each of the 256 vectors leads where the
last call for it says, or else to its stub, and the vectors from 48 on lead nowhere; every
address is taken apart and put together again without loss, and no byte beside the two
variables has changed. -/
theorem vectors_lead_to_handlers (m : Mem) (t : Tables) (isr irq : Nat → UInt64)
    (later : List GateCall) :
    (∀ v, (installed m t isr irq later).2.deliver (installed m t isr irq later).1 v =
      (((lastCall later v).or (bootGate isr irq v)).map GateCall.descriptor).filter
        fun d => d.Usable) ∧
    ∀ x, x ∉ tableBytes t → x ∉ idtPtr.bytes t.idtp →
      (installed m t isr irq later).1 x = m x := by
  constructor
  · intro v
    have hv := v.toNat_lt
    have hregister : (installed m t isr irq later).2 = ⟨4095, t.idt⟩ := idtInstall_register m t
    have hread : readDescriptor (installed m t isr irq later).1 (entryAt t.idt v.toNat) =
        ((lastCall later v).map GateCall.descriptor).getD
          (((bootGate isr irq v).map GateCall.descriptor).getD noGate) := by
      rw [← lastCall_isrInstallCalls, ← readDescriptor_clearEntries (n := idtEntries) hv]
      exact (readDescriptor_setGates _ _ later v).trans
        (congrArg _ (readDescriptor_setGates _ _ _ v))
    have hentry : t.idt + 16 * v.toNat = entryAt t.idt v.toNat := rfl
    rw [hregister, Idtr.deliver, if_pos (by dsimp only; omega)]
    dsimp only
    rw [hentry, hread]
    cases lastCall later v with
    | some c => exact (if_congr decide_eq_true_iff rfl rfl).symm
    | none =>
      cases bootGate isr irq v with
      | some c => exact (if_congr decide_eq_true_iff rfl rfl).symm
      | none => exact if_neg (by decide)
  · intro x hx hp
    exact (setGates_apply later hx).trans ((setGates_apply _ hx).trans (idtInstall_apply hx hp))

end AlvOS.Interrupts
