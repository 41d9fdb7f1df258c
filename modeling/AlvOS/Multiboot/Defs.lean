import AlvOS.Console
import AlvOS.Lib.ByteMemory
import AlvOS.Lib.Machine
import AlvOS.Memory.Defs

/-! The two walks over the boot information: `memory_detect` and `debug_multiboot_info`.
Each is a machine that stands before the condition of one of its loops; pointers are
64-bit and stay far below the end of their range, sizes are 32-bit and wrap. -/

namespace AlvOS.Multiboot
open ByteMemory Word Memory

def tagTypeEnd : Nat := 0
def tagTypeCmdline : Nat := 1
def tagTypeBootLoaderName : Nat := 2
def tagTypeBasicMeminfo : Nat := 4
def tagTypeMmap : Nat := 6
def bootloaderMagic : Nat := 0x36d76289

section Fields
variable (m : Mem) (t : Nat)

def tagType : Nat := readLE m t 4
def tagSize : Nat := readLE m (t + 4) 4
def memLower : Nat := readLE m (t + 8) 4
def memUpper : Nat := readLE m (t + 12) 4
def entrySize : Nat := readLE m (t + 8) 4

/-- The fields of a map entry that are copied. -/
def entryAt : MemoryMapEntry where
  baseAddr := readLE m t 8
  length := readLE m (t + 8) 8
  type := readLE m (t + 16) 4
  baseAddr_lt := readLE_lt m t 8
  length_lt := readLE_lt m (t + 8) 8
  type_lt := readLE_lt m (t + 16) 4

/-- `(tag->size + 7) & ~7`. -/
def tagStride : Nat := u32 (tagSize m t + 7) &&& (2 ^ 32 - 8)

/-- `total_size` is the first word. -/
def stop : Nat := t + readLE m t 4

end Fields

/-- The condition of both tag loops, without the read of the type that comes before. -/
def TagOpen (m : Mem) (stop t : Nat) : Prop := tagType m t ≠ tagTypeEnd ∧ t < stop

instance (m : Mem) (stop t : Nat) : Decidable (TagOpen m stop t) :=
  inferInstanceAs (Decidable (_ ∧ _))

/-- A call of the terminal driver, or a string of the boot information. -/
inductive Print
  | call (c : TerminalCall)
  | stringAt (addr : Nat)

def text (s : String) : Print := .call (.writestring s)
def hex (v : Nat) : Print := .call (.printHex v)
def dec (v : Nat) : Print := .call (.printDec v)

/-- The static `memory_info` and what has been printed. -/
structure Detection where
  info : MemoryInfo
  console : List Print

def Detection.print (d : Detection) (calls : List Print) : Detection :=
  { d with console := d.console ++ calls }

/-! ## Handlers of `memory_detect` -/

/-- An entry is copied as long as there is room in the table. -/
def recordEntry (info : MemoryInfo) (e : MemoryMapEntry) : MemoryInfo :=
  if h : info.entries.length < memoryMapSize then
    { entries := info.entries ++ [e]
      totalMemory := u64 (info.totalMemory + e.length)
      availableMemory :=
        if e.type = memoryAvailable then u64 (info.availableMemory + e.length)
        else info.availableMemory
      count_le := by rwa [List.length_append, List.length_singleton] }
  else info

def setTotal (info : MemoryInfo) (total : Nat) : MemoryInfo :=
  { info with totalMemory := total, availableMemory := total }

def typeName : Nat → String
  | 1 => "DISPONIBLE"
  | 2 => "RESERVADA"
  | 3 => "ACPI RECUPERABLE"
  | 4 => "NVS"
  | 5 => "BAD RAM"
  | _ => "DESCONOCIDA"

def entryLine (e : MemoryMapEntry) : List Print :=
  [text "   ", hex e.baseAddr, text " - ", hex (u64 (e.baseAddr + e.length + (2 ^ 64 - 1))),
    text " (", dec (e.length / 1024), text " KB) - ", text (typeName e.type), text "\n"]

/-- The body of the entry loop; the first five entries are printed. -/
def Detection.entry (d : Detection) (e : MemoryMapEntry) : Detection where
  info := recordEntry d.info e
  console := if d.info.entries.length < 5 then d.console ++ entryLine e else d.console

/-- The products are 32-bit. -/
def basicMemory (m : Mem) (t : Nat) : Nat := u32 (memLower m t * 1024) + u32 (memUpper m t * 1024)

def Detection.basicMeminfo (d : Detection) (m : Mem) (t : Nat) : Detection :=
  { d with info := setTotal d.info (basicMemory m t) }.print
    [text "Memoria básica: ", dec (u32 (memLower m t * 1024) / 1024), text "KB baja + ",
      dec (u32 (memUpper m t * 1024) / 1024), text "KB alta = ",
      dec (basicMemory m t / (1024 * 1024)), text "MB total\n"]

def Detection.mapEnd (d : Detection) : Detection :=
  if 5 ≤ d.info.entries.length then
    d.print [text "   ... y ", dec (d.info.entries.length - 5), text " regiones más\n"]
  else d

def Detection.finish (d : Detection) : Detection :=
  d.print [text "Detección completada: ", dec d.info.entries.length, text " regiones, ",
    dec (d.info.totalMemory / (1024 * 1024)), text "MB total, ",
    dec (d.info.availableMemory / (1024 * 1024)), text "MB disponible\n"]

/-! ## `memory_detect` -/

inductive Detect
  | tag (t : Nat) (d : Detection)
  | entry (t entryPtr : Nat) (d : Detection)
  | done (d : Detection)

/-- The tags that are not a memory map: their effect before the walk goes on. -/
def Detection.otherTag (d : Detection) (m : Mem) (t : Nat) : Detection :=
  if tagType m t = tagTypeBasicMeminfo then d.basicMeminfo m t
  else if tagType m t = tagTypeCmdline then
    d.print [text "Línea de comandos: ", .stringAt (t + 8), text "\n"]
  else if tagType m t = tagTypeBootLoaderName then
    d.print [text "Bootloader: ", .stringAt (t + 8), text "\n"]
  else d

def detectStep (m : Mem) (stop : Nat) : Detect → Option Detect
  | .tag t d =>
    if TagOpen m stop t then
      if tagType m t = tagTypeMmap then
        some (.entry t (t + 16) (d.print [text "Mapa de memoria detectado:\n"]))
      else some (.tag (t + tagStride m t) (d.otherTag m t))
    else some (.done d.finish)
  | .entry t entryPtr d =>
    if entryPtr < t + tagSize m t then
      some (.entry t (entryPtr + entrySize m t) (d.entry (entryAt m entryPtr)))
    else some (.tag (t + tagStride m t) d.mapEnd)
  | .done _ => none

/-- Address and width of the fields that a step reads, in order. -/
def detectReads (m : Mem) (stop : Nat) : Detect → List (Nat × Nat)
  | .tag t _ =>
    (t, 4) ::
      if TagOpen m stop t then
        if tagType m t = tagTypeMmap then []
        else if tagType m t = tagTypeBasicMeminfo then [(t + 8, 4), (t + 12, 4), (t + 4, 4)]
        else [(t + 4, 4)]
      else []
  | .entry t entryPtr d =>
    (t + 4, 4) ::
      if entryPtr < t + tagSize m t then
        (if d.info.entries.length < memoryMapSize then
          [(entryPtr, 8), (entryPtr + 8, 8), (entryPtr + 16, 4)] else []) ++ [(t + 8, 4)]
      else [(t + 4, 4)]
  | .done _ => []

def detectHeader (m : Mem) (multibootInfo : Nat) : List Print :=
  [text "Tamaño estructura Multiboot2: ", dec (readLE m multibootInfo 4), text " bytes\n",
    text "Analizando información Multiboot2...\n"]

/-- The three assignments at the head of `memory_detect`. -/
def resetInfo (info : MemoryInfo) : MemoryInfo :=
  { info with
    entries := []
    totalMemory := 0
    availableMemory := 0
    count_le := Nat.zero_le _ }

/-- Where `memory_detect` begins; it first resets `memory_info`, and it returns at once
without boot information or when that is not aligned. -/
def memoryDetect (m : Mem) (multibootInfo : Nat) (d : Detection) : Detect :=
  let d := { d with info := resetInfo d.info }
  if multibootInfo = 0 then .done (d.print [text "No hay información Multiboot2 disponible\n"])
  else if multibootInfo &&& 7 ≠ 0 then
    .done (d.print [text "Puntero Multiboot no alineado: 0x", hex multibootInfo, text "\n"])
  else
    .tag (u32 (multibootInfo + 8)) (d.print (detectHeader m multibootInfo))

/-! ## `debug_multiboot_info` -/

inductive Debug
  | tag (t tagCount : Nat) (console : List Print)
  | done (console : List Print)

def debugLines (m : Mem) (t : Nat) : List Print :=
  if tagType m t = tagTypeCmdline then [text "         -> CMDLINE: ", .stringAt (t + 8), text "\n"]
  else if tagType m t = tagTypeBootLoaderName then
    [text "         -> BOOTLOADER: ", .stringAt (t + 8), text "\n"]
  else if tagType m t = tagTypeBasicMeminfo then
    [text "         -> BASIC_MEMINFO: ", dec (memLower m t), text "KB baja, ", dec (memUpper m t),
      text "KB alta\n"]
  else if tagType m t = tagTypeMmap then [text "         -> MMAP (mapa de memoria)\n"]
  else [text "         -> Tipo desconocido\n"]

def debugStep (m : Mem) (stop : Nat) : Debug → Option Debug
  | .tag t tagCount console =>
    if TagOpen m stop t then
      some (.tag (t + tagStride m t) (tagCount + 1)
        (console ++ [text "      Tag ", dec tagCount, text ": tipo=0x", hex (tagType m t),
          text ", tamaño=", dec (tagSize m t), text "\n"] ++ debugLines m t))
    else some (.done (console ++ [text "   Total tags: ", dec tagCount, text "\n"]))
  | .done _ => none

def debugMultibootInfo (m : Mem) (magic multibootInfo : Nat) (console : List Print) : Debug :=
  let console := console ++ [.call (.setcolor .lightBrown .black), text "DEBUG MULTIBOOT2:\n",
    text "   Magic recibido: 0x", hex magic, text " (esperado: 0x", hex bootloaderMagic, text ")\n"]
  if magic ≠ bootloaderMagic then .done (console ++ [text "Magic number incorrecto!\n"])
  else if multibootInfo = 0 then .done (console ++ [text "   multiboot_info es NULL\n"])
  else if multibootInfo &&& 7 ≠ 0 then
    .done (console ++ [text "Puntero no alineado: 0x", hex multibootInfo, text "\n"])
  else
    .tag (u32 (multibootInfo + 8)) 0 (console ++ [text "   Tamaño total: ",
      dec (readLE m multibootInfo 4), text " bytes\n", text "   Tags encontrados:\n"])

end AlvOS.Multiboot
