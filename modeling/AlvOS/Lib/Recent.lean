import Mathlib.Data.List.Destutter
import Mathlib.Data.List.DropRight
import Mathlib.Data.List.Induction

/-! Bounded histories.  A history keeps the last `n` items it was given, and skips an item
equal to the one before. -/

namespace Recent
open List
variable {α : Type*} {n : Nat} {rows items : List α} {a : α}

theorem rtake_of_length_le (h : items.length ≤ n) : items.rtake n = items := by
  rw [rtake, Nat.sub_eq_zero_of_le h, drop_zero]

theorem length_rtake (n : Nat) (items : List α) : (items.rtake n).length = min n items.length := by
  rw [rtake, length_drop]
  omega

theorem getLast?_rtake (hn : 0 < n) (items : List α) : (items.rtake n).getLast? = items.getLast? := by
  rw [rtake, getLast?_drop]
  cases items with
  | nil => simp
  | cons b items => rw [length_cons, if_neg (by omega)]

theorem rtake_concat_rtake (hn : 0 < n) (items : List α) (a : α) :
    (items.rtake n ++ [a]).rtake n = (items ++ [a]).rtake n := by
  obtain ⟨k, rfl⟩ : ∃ k, n = k + 1 := ⟨n - 1, by omega⟩
  rw [rtake_concat_succ, rtake_concat_succ, rtake, rtake, rtake, drop_drop, length_drop]
  congr 2
  omega

variable [DecidableEq α]

def push (n : Nat) (rows : List α) (a : α) : List α :=
  if rows.getLast? = some a then rows else (rows ++ [a]).rtake n

/-- The last `n` items, of which equal neighbours count once. -/
def recent (n : Nat) (items : List α) : List α := (items.destutter (· ≠ ·)).rtake n

theorem getLast?_cons_destutter' (c b : α) (items : List α) :
    (c :: items.destutter' (· ≠ ·) b).getLast? = (items.destutter' (· ≠ ·) b).getLast? := by
  obtain ⟨d, ds, hcons⟩ := exists_cons_of_ne_nil (destutter'_ne_nil items (· ≠ ·) (a := b))
  rw [hcons, getLast?_cons_cons]

theorem destutter'_concat (b : α) (items : List α) (a : α) :
    (items ++ [a]).destutter' (· ≠ ·) b =
      if (items.destutter' (· ≠ ·) b).getLast? = some a then items.destutter' (· ≠ ·) b
      else items.destutter' (· ≠ ·) b ++ [a] := by
  induction items generalizing b with
  | nil => by_cases hb : b = a <;> simp [hb]
  | cons c items ih =>
    rw [cons_append]
    by_cases hne : b ≠ c
    · rw [destutter'_cons_pos _ hne, destutter'_cons_pos _ hne, ih, getLast?_cons_destutter']
      split_ifs <;> rfl
    · rw [destutter'_cons_neg _ hne, destutter'_cons_neg _ hne, ih]

theorem destutter_concat (items : List α) (a : α) :
    (items ++ [a]).destutter (· ≠ ·) =
      if (items.destutter (· ≠ ·)).getLast? = some a then items.destutter (· ≠ ·)
      else items.destutter (· ≠ ·) ++ [a] := by
  cases items with
  | nil => rfl
  | cons b items => exact destutter'_concat b items a

theorem recent_concat (hn : 0 < n) (items : List α) (a : α) :
    recent n (items ++ [a]) = push n (recent n items) a := by
  rw [recent, destutter_concat, push, recent, getLast?_rtake hn, rtake_concat_rtake hn]
  split_ifs <;> rfl

theorem foldl_push (hn : 0 < n) (items : List α) : items.foldl (push n) [] = recent n items := by
  induction items using reverseRecOn with
  | nil => simp [recent]
  | append_singleton items a ih =>
    rw [foldl_append, ih, recent_concat hn]
    rfl

end Recent
