import AlvOS.Lib.Machine
import AlvOS.Lib.Numeral
import AlvOS.Terminal.Defs

/-! The numbers that terminal.c prints.  Digits come least significant first; `print_hex` lays
them into its buffer from the end, and `print_dec` empties its buffer backwards. -/

namespace AlvOS.Terminal
open Function Machine Numeral

/-- The terminal, and the characters `terminal_putchar` has been called with. -/
structure Output where
  screen : Screen
  sent : List UInt8

def Output.putchar (o : Output) (c : UInt8) : Output where
  screen := terminalPutchar o.screen c
  sent := o.sent ++ [c]

def Output.writestring (o : Output) (data : List UInt8) : Output where
  screen := terminalWritestring o.screen data
  sent := o.sent ++ data.takeWhile (· ≠ 0)

def hexChars : List UInt8 := "0123456789ABCDEF".toList.map fun c => c.toNat.toUInt8

/-- The loop of `print_hex` over the first `i` entries of its buffer, from the last on. -/
def fillHex (value : UInt64) (buffer : Nat → UInt8) : Nat → Nat → UInt8
  | 0 => buffer
  | i + 1 => fillHex (value >>> 4) (update buffer i (hexChars.getD (value &&& 0xF).toNat 0)) i

def printHex (o : Output) (buffer : Nat → UInt8) (value : UInt64) : Output :=
  o.writestring ((List.range 17).map (fillHex value (update buffer 16 0) 16))

/-- The local variables of `print_dec`, and the terminal. -/
structure Decimal where
  value : UInt64
  buffer : Nat → UInt8
  i : Nat
  output : Output

/-- One turn of the loop that is running.  The second one leaves `value` at 0. -/
def Decimal.turn (d : Decimal) : Option Decimal :=
  if 0 < d.value then
    some { d with
      value := d.value / 10
      buffer := update d.buffer d.i (48 + d.value % 10).toUInt8
      i := d.i + 1 }
  else if 0 < d.i then
    some { d with i := d.i - 1, output := d.output.putchar (d.buffer (d.i - 1)) }
  else none

/-- Where the loops begin; 0 is printed without them. -/
def printDec (o : Output) (buffer : Nat → UInt8) (value : UInt64) : Decimal :=
  if value = 0 then ⟨0, buffer, 0, o.putchar 48⟩ else ⟨value, buffer, 0, o⟩

def asciiDigit (c : UInt8) : Option Nat :=
  if 48 ≤ c ∧ c ≤ 57 then some (c.toNat - 48)
  else if 65 ≤ c ∧ c ≤ 70 then some (c.toNat - 55)
  else none

def decChar (d : Nat) : UInt8 := UInt8.ofNat (48 + d)

def hexChar (d : Nat) : UInt8 := hexChars.getD d 0

theorem asciiDigit_decChar : ∀ d < 10, asciiDigit (decChar d) = some d := by decide

theorem asciiDigit_hexChar : ∀ d < 16, asciiDigit (hexChar d) = some d := by decide

theorem decChar_mod (value : UInt64) :
    (48 + value % 10).toUInt8 = decChar (value.toNat % 10) := by
  apply UInt8.toNat_inj.mp
  simp [decChar, UInt64.toNat_mod]

theorem hexChar_and (value : UInt64) :
    hexChars.getD (value &&& 0xF).toNat 0 = hexChar (value.toNat % 16) := by
  have hmod : (value &&& 0xF).toNat = value.toNat % 16 := Nat.and_two_pow_sub_one_eq_mod _ 4
  rw [hmod, hexChar]

theorem toNat_shiftRight_four (value : UInt64) : (value >>> 4).toNat = value.toNat / 16 :=
  Nat.shiftRight_eq_div_pow _ 4

/-- What was sent has been written to the screen `s`. -/
def Output.Writes (s : Screen) (o : Output) : Prop := o.screen = terminalWrite s o.sent

section Output
variable {s : Screen} {o : Output}

theorem Output.writes_nil (s : Screen) : Output.Writes s ⟨s, []⟩ := rfl

theorem Output.Writes.writestring (h : o.Writes s) (data : List UInt8) :
    (o.writestring data).Writes s := by
  change terminalWrite o.screen (data.takeWhile (· ≠ 0)) = terminalWrite s (o.sent ++ _)
  rw [terminalWrite, terminalWrite, List.foldl_append, h, terminalWrite]

theorem Output.Writes.putchar (h : o.Writes s) (c : UInt8) : (o.putchar c).Writes s := by
  change terminalPutchar o.screen c = terminalWrite s (o.sent ++ [c])
  rw [terminalWrite, List.foldl_append, h, terminalWrite]
  rfl

end Output

/-! ## print_hex -/

theorem fillHex_of_le (value : UInt64) (buffer : Nat → UInt8) {n j : Nat} (h : n ≤ j) :
    fillHex value buffer n j = buffer j := by
  induction n generalizing value buffer with
  | zero => rfl
  | succ n ih =>
    rw [fillHex, ih _ _ (by omega)]
    exact update_of_ne (by omega) _ _

theorem map_fillHex {value : UInt64} {n : Nat} (h : value.toNat < 16 ^ n) (buffer : Nat → UInt8) :
    (List.range n).map (fillHex value buffer n) =
      write hexChar (Nat.digitsAppend 16 n value.toNat) := by
  induction n generalizing value buffer with
  | zero => rw [Nat.lt_one_iff.mp h]; rfl
  | succ n ih =>
    have hrest : (value >>> 4).toNat < 16 ^ n := by
      rw [toNat_shiftRight_four, Nat.div_lt_iff_lt_mul (by decide)]
      exact h
    rw [digitsAppend_succ (by decide), write_cons, fillHex, List.range_succ, List.map_append,
      ih hrest, toNat_shiftRight_four, List.map_singleton, fillHex_of_le _ _ (le_refl n),
      update_self, hexChar_and]

theorem hexChar_ne_zero : ∀ d < 16, hexChar d ≠ 0 := by decide

theorem printHex_sent (o : Output) (buffer : Nat → UInt8) (value : UInt64) :
    (printHex o buffer value).sent =
      o.sent ++ write hexChar (Nat.digitsAppend 16 16 value.toNat) := by
  have hfits : value.toNat < 16 ^ 16 := value.toNat_lt
  have hdigit : ∀ c ∈ write hexChar (Nat.digitsAppend 16 16 value.toNat), (c ≠ 0 : Bool) := by
    intro c hc
    obtain ⟨d, hd, rfl⟩ := exists_of_mem_write hc
    exact decide_eq_true (hexChar_ne_zero d (Nat.lt_of_mem_digitsAppend (by decide) 16 d hd))
  have hbuffer : (List.range 17).map (fillHex value (update buffer 16 0) 16) =
      write hexChar (Nat.digitsAppend 16 16 value.toNat) ++ [0] := by
    rw [List.range_succ, List.map_append, List.map_singleton, map_fillHex hfits,
      fillHex_of_le _ _ (le_refl 16), update_self]
  rw [printHex, Output.writestring, hbuffer, List.takeWhile_append_of_pos hdigit]
  exact congrArg (o.sent ++ ·) (List.append_nil _)

/-! ## print_dec -/

namespace Decimal

/-- The characters still to come: the digits of the value, and then the buffer. -/
def pending (d : Decimal) : List UInt8 :=
  write decChar (Nat.digits 10 d.value.toNat) ++ write d.buffer (List.range d.i)

theorem write_range_succ (buffer : Nat → UInt8) (i : Nat) :
    write buffer (List.range (i + 1)) = buffer i :: write buffer (List.range i) := by
  rw [write, List.range_succ, List.map_append, List.reverse_append]
  rfl

theorem write_range_update (buffer : Nat → UInt8) (i : Nat) (c : UInt8) :
    write (update buffer i c) (List.range i) = write buffer (List.range i) := by
  refine congrArg List.reverse (List.map_congr_left fun j hj => ?_)
  have hlt := List.mem_range.mp hj
  exact update_of_ne (by omega) _ _

variable {d d' : Decimal} {s : Screen} {chars : List UInt8}

/-- A digit goes to the buffer, or the last character in the buffer to the terminal. -/
theorem turn_cases (h : d.turn = some d') :
    (0 < d.value.toNat ∧ d' = { d with
      value := d.value / 10
      buffer := update d.buffer d.i (decChar (d.value.toNat % 10))
      i := d.i + 1 }) ∨
    (d.value.toNat = 0 ∧ ∃ i, d.i = i + 1 ∧
      d' = { d with i := i, output := d.output.putchar (d.buffer i) }) := by
  rw [turn] at h
  split_ifs at h with hvalue hi
  · rw [decChar_mod] at h
    exact .inl ⟨UInt64.lt_iff_toNat_lt.mp hvalue, (Option.some.inj h).symm⟩
  · have hzero : d.value.toNat = 0 := Nat.le_zero.mp (Nat.le_of_not_lt hvalue)
    exact .inr ⟨hzero, d.i - 1, (Nat.sub_add_cancel hi).symm, (Option.some.inj h).symm⟩

theorem turn_eq_none (h : d.turn = none) : d.value.toNat = 0 ∧ d.i = 0 := by
  rw [turn] at h
  split_ifs at h with hvalue hi
  exact ⟨Nat.le_zero.mp (Nat.le_of_not_lt hvalue), Nat.le_zero.mp (Nat.le_of_not_lt hi)⟩

theorem digits_value (h : 0 < d.value.toNat) : Nat.digits 10 d.value.toNat =
    d.value.toNat % 10 :: Nat.digits 10 (d.value / 10).toNat :=
  Nat.digits_def' (by decide) h

theorem pending_digit (h : 0 < d.value.toNat) (o : Output) :
    pending ⟨d.value / 10, update d.buffer d.i (decChar (d.value.toNat % 10)), d.i + 1, o⟩ =
      d.pending := by
  change write decChar (Nat.digits 10 (d.value / 10).toNat) ++
    write (update d.buffer d.i (decChar (d.value.toNat % 10))) (List.range (d.i + 1)) = d.pending
  rw [write_range_succ, update_self, write_range_update, pending, digits_value h, write_cons,
    List.append_assoc, List.singleton_append]

theorem pending_putchar {i : Nat} (h : d.value.toNat = 0) (hi : d.i = i + 1) (o : Output) :
    d.pending = d.buffer i :: pending ⟨d.value, d.buffer, i, o⟩ := by
  rw [pending, pending, h, hi, write_range_succ]
  rfl

/-- On the way of sending `chars` to the screen `s`. -/
structure Sending (s : Screen) (chars : List UInt8) (d : Decimal) : Prop where
  all : d.output.sent ++ d.pending = chars
  room : (Nat.digits 10 d.value.toNat).length + d.i ≤ 20
  writes : d.output.Writes s

theorem Sending.turn (h : Sending s chars d) (hturn : d.turn = some d') : Sending s chars d' := by
  obtain ⟨hvalue, rfl⟩ | ⟨hvalue, i, hi, rfl⟩ := turn_cases hturn
  · refine ⟨?_, ?_, h.writes⟩
    · rw [pending_digit hvalue]
      exact h.all
    · have hroom := h.room
      rw [digits_value hvalue, List.length_cons] at hroom
      change (Nat.digits 10 (d.value / 10).toNat).length + (d.i + 1) ≤ 20
      omega
  · refine ⟨?_, ?_, h.writes.putchar _⟩
    · rw [← h.all, pending_putchar hvalue hi]
      exact List.append_assoc ..
    · have hroom := h.room
      change (Nat.digits 10 d.value.toNat).length + i ≤ 20
      omega

theorem Sending.halted (h : Sending s chars d) (hturn : d.turn = none) :
    d.output.sent = chars := by
  obtain ⟨hvalue, hi⟩ := turn_eq_none hturn
  rw [← h.all, pending, hvalue, hi]
  exact (List.append_nil _).symm

theorem halts (d : Decimal) : Halts turn d := by
  refine halts_of_rank (fun d => 2 * d.value.toNat + d.i) (P := fun _ => True)
    (fun {d d'} _ hturn => ⟨trivial, ?_⟩) trivial
  obtain ⟨hvalue, rfl⟩ | ⟨hvalue, i, hi, rfl⟩ := turn_cases hturn
  · have hdiv : (d.value / 10).toNat = d.value.toNat / 10 := UInt64.toNat_div _ _
    change 2 * (d.value / 10).toNat + (d.i + 1) < 2 * d.value.toNat + d.i
    omega
  · change 2 * d.value.toNat + i < 2 * d.value.toNat + d.i
    omega

end Decimal

/-- The numeral of `n`. -/
def decimal (n : Nat) : List UInt8 := if n = 0 then [48] else write decChar (Nat.digits 10 n)

theorem canonical_decimal (n : Nat) : Canonical asciiDigit 10 n (decimal n) := by
  rw [decimal]
  split_ifs with hn
  · refine ⟨?_, by rw [hn]; rfl, List.cons_ne_nil _ _, fun c rest hcs _ => ⟨hn, ?_⟩⟩
    · rw [List.forall_mem_singleton]
      exact ⟨0, by decide, by decide⟩
    · exact (List.cons.inj hcs).2.symm
  · exact canonical_write_digits (by decide) asciiDigit_decChar hn

theorem sending_printDec (s : Screen) (buffer : Nat → UInt8) (value : UInt64) :
    (printDec ⟨s, []⟩ buffer value).Sending s (decimal value.toNat) := by
  by_cases hzero : value = 0
  · subst hzero
    exact ⟨rfl, Nat.zero_le 20, (Output.writes_nil s).putchar 48⟩
  · have hn : value.toNat ≠ 0 := fun h => hzero (UInt64.toNat_inj.mp h)
    have hfits : value.toNat < 10 ^ 20 := value.toNat_lt.trans (by decide)
    rw [printDec, if_neg hzero, decimal, if_neg hn]
    exact ⟨List.append_nil _, (Nat.digits_length_le_iff (by decide) _).mpr hfits,
      Output.writes_nil s⟩

/-- What is printed for a number is its numeral. -/
theorem numbers_printed_exactly (s : Screen) (buffer : Nat → UInt8) (value : UInt64) :
    (∃ d, HaltsAt Decimal.turn (printDec ⟨s, []⟩ buffer value) d ∧
      Canonical asciiDigit 10 value.toNat d.output.sent ∧
      d.output.screen = terminalWrite s d.output.sent) ∧
    (∀ d, Reaches Decimal.turn (printDec ⟨s, []⟩ buffer value) d → d.i ≤ 20) ∧
    (printHex ⟨s, []⟩ buffer value).sent.length = 16 ∧
    read asciiDigit 16 (printHex ⟨s, []⟩ buffer value).sent = some value.toNat ∧
    (printHex ⟨s, []⟩ buffer value).screen =
      terminalWrite s (printHex ⟨s, []⟩ buffer value).sent := by
  have hstart := sending_printDec s buffer value
  have hhex := printHex_sent ⟨s, []⟩ buffer value
  rw [List.nil_append] at hhex
  refine ⟨?_, fun d hd => ?_, ?_, ?_, (Output.writes_nil s).writestring _⟩
  · obtain ⟨d, hreach, hnone⟩ := Decimal.halts (printDec ⟨s, []⟩ buffer value)
    have hend := hreach.invariant Decimal.Sending.turn hstart
    refine ⟨d, ⟨hreach, hnone⟩, ?_, hend.writes⟩
    rw [hend.halted hnone]
    exact canonical_decimal _
  · exact (Nat.le_add_left _ _).trans (hd.invariant Decimal.Sending.turn hstart).room
  · have hfits : value.toNat < 16 ^ 16 := value.toNat_lt
    rw [hhex, length_write, Nat.length_digitsAppend (by decide) 16 hfits]
  · rw [hhex, read_write_digitsAppend (by decide) asciiDigit_hexChar]

end AlvOS.Terminal
