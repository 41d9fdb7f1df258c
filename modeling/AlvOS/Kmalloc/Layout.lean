import AlvOS.Lib.BlockList
import AlvOS.Kmalloc.Defs

/-! How a list of abstract blocks lies in memory: each header at the end of the
block before it, doubly linked.  `Linked` is the whole relation between the bytes
and the list; an operation is verified by showing what it does to both sides. -/

namespace AlvOS.Kmalloc
open ByteMemory BlockList Set

section Fields
variable {m : Mem} {a b v : Nat} {f g : Field}

@[simp] theorem heapBlock_size : heapBlock.size = 29 := rfl

theorem load_store_ne (h : f ≠ g) :
    heapBlock.load (heapBlock.store m a f v) a g = heapBlock.load m a g :=
  heapBlock.load_store_of_ne h

theorem load_store_apart (h : a + 29 ≤ b ∨ b + 29 ≤ a) :
    heapBlock.load (heapBlock.store m a f v) b g = heapBlock.load m b g :=
  heapBlock.load_store_apart h

theorem load_store_magic (h : v < 2 ^ 32) :
    heapBlock.load (heapBlock.store m a .magic v) a .magic = v := heapBlock.load_store_self h

theorem load_store_size (h : v < 2 ^ 64) :
    heapBlock.load (heapBlock.store m a .size v) a .size = v := heapBlock.load_store_self h

theorem load_store_isFree (h : v < 2 ^ 8) :
    heapBlock.load (heapBlock.store m a .isFree v) a .isFree = v := heapBlock.load_store_self h

theorem load_store_next (h : v < 2 ^ 64) :
    heapBlock.load (heapBlock.store m a .next v) a .next = v := heapBlock.load_store_self h

theorem load_store_prev (h : v < 2 ^ 64) :
    heapBlock.load (heapBlock.store m a .prev v) a .prev = v := heapBlock.load_store_self h

theorem store_apply {x : Nat} (h : x < a ∨ a + 29 ≤ x) : heapBlock.store m a f v x = m x :=
  heapBlock.store_apply_of_notMem fun hx => by
    have h1 : a ≤ x := hx.1
    have h2 : x < a + 29 := hx.2
    omega

theorem store_prev_apply {x : Nat} (h : x < a + 21 ∨ a + 29 ≤ x) :
    heapBlock.store m a .prev v x = m x :=
  heapBlock.store_apply_of_notMem_field fun hx => by
    have h1 : a + 21 ≤ x := hx.1
    have h2 : x < a + 21 + 8 := hx.2
    omega

end Fields

/-- The header at `a` describes `b` and points to `nxt` and `prv`. -/
structure HeaderAt (m : Mem) (a : Nat) (b : Block) (nxt prv : Nat) : Prop where
  magic : heapBlock.load m a .magic = heapMagic
  size : heapBlock.load m a .size = b.size
  isFree : heapBlock.load m a .isFree = b.free.toNat
  next : heapBlock.load m a .next = nxt
  prev : heapBlock.load m a .prev = prv

/-- The address `a` of what follows, or `nxt` where nothing does. -/
def headOr (a nxt : Nat) : List Block → Nat
  | [] => nxt
  | _ :: _ => a

@[simp] theorem headOr_nil (a nxt : Nat) : headOr a nxt [] = nxt := rfl

@[simp] theorem headOr_cons (a nxt : Nat) (b : Block) (bs : List Block) :
    headOr a nxt (b :: bs) = a := rfl

/-- The address of the last block of a list laid out from `a`, or `prv`. -/
def lastAddr (prv a : Nat) : List Block → Nat
  | [] => prv
  | b :: bs => lastAddr a (a + (29 + b.size)) bs

/-- The blocks `bs` lie one after the other from `a`; the first points back to
`prv` and the last on to `nxt`. -/
def Linked (m : Mem) : Nat → Nat → List Block → Nat → Prop
  | _, _, [], _ => True
  | prv, a, b :: bs, nxt =>
    HeaderAt m a b (headOr (a + (29 + b.size)) nxt bs) prv ∧
      Linked m a (a + (29 + b.size)) bs nxt

theorem HeaderAt.congr {m m' : Mem} {a : Nat} {b : Block} {nxt prv : Nat}
    (h : HeaderAt m a b nxt prv) (heq : EqOn m m' (Ico a (a + 29))) :
    HeaderAt m' a b nxt prv := by
  have hload : ∀ f, heapBlock.load m' a f = heapBlock.load m a f :=
    fun f => (heapBlock.load_congr heq f).symm
  constructor <;> rw [hload]
  exacts [h.magic, h.size, h.isFree, h.next, h.prev]

theorem Linked.congr {m m' : Mem} {prv a nxt : Nat} {bs : List Block}
    (h : Linked m prv a bs nxt) (heq : EqOn m m' (headerBytes 29 a bs)) :
    Linked m' prv a bs nxt := by
  induction bs generalizing prv a with
  | nil => trivial
  | cons b bs ih =>
    exact ⟨h.1.congr fun x hx => heq (.inl hx), ih h.2 fun x hx => heq (.inr hx)⟩

theorem Linked.redirect {m m' : Mem} {prv prv' a nxt : Nat} {bs : List Block}
    (h : Linked m prv a bs nxt) (hprev : bs ≠ [] → heapBlock.load m' a .prev = prv')
    (heq : ∀ x ∈ headerBytes 29 a bs, x ∉ Ico (a + 21) (a + 29) → m x = m' x) :
    Linked m' prv' a bs nxt := by
  cases bs with
  | nil => trivial
  | cons b bs =>
    have hfield : ∀ f, f ≠ .prev → heapBlock.load m' a f = heapBlock.load m a f := by
      intro f hf
      refine (heapBlock.load_congr_field fun x hx => heq x (.inl ?_) fun hx' => ?_).symm
      · exact heapBlock.fieldBytes_subset a f hx
      · have h1 := hx.1; have h2 := hx.2; have h3 := hx'.1; have h4 := hx'.2
        cases f <;> simp_all [heapBlock] <;> omega
    refine ⟨⟨?_, ?_, ?_, ?_, hprev (by simp)⟩, h.2.congr fun x hx => heq x (.inr hx) ?_⟩
    · rw [hfield _ (by decide), h.1.magic]
    · rw [hfield _ (by decide), h.1.size]
    · rw [hfield _ (by decide), h.1.isFree]
    · rw [hfield _ (by decide), h.1.next]
    · intro hx'
      have := (headerBytes_subset 29 _ _ hx).1
      have := hx'.2
      omega

theorem linked_append {m : Mem} {prv a nxt : Nat} {xs ys : List Block} :
    Linked m prv a (xs ++ ys) nxt ↔
      Linked m prv a xs (headOr (a + extent 29 xs) nxt ys) ∧
        Linked m (lastAddr prv a xs) (a + extent 29 xs) ys nxt := by
  induction xs generalizing prv a with
  | nil => simp [Linked, lastAddr]
  | cons x xs ih =>
    have hnext : headOr (a + (29 + x.size)) nxt (xs ++ ys) =
        headOr (a + (29 + x.size)) (headOr (a + (29 + x.size) + extent 29 xs) nxt ys) xs := by
      cases xs <;> cases ys <;> simp
    simp only [List.cons_append, Linked, ih, hnext, lastAddr, extent_cons, and_assoc, Nat.add_assoc]

theorem linked_append_cons {m : Mem} {prv a nxt : Nat} {pre post : List Block} {b : Block} :
    Linked m prv a (pre ++ b :: post) nxt ↔
      Linked m prv a pre (a + extent 29 pre) ∧
        HeaderAt m (a + extent 29 pre) b
          (headOr (a + extent 29 pre + (29 + b.size)) nxt post) (lastAddr prv a pre) ∧
        Linked m (a + extent 29 pre) (a + extent 29 pre + (29 + b.size)) post nxt :=
  linked_append

theorem lastAddr_append_singleton (prv a : Nat) (xs : List Block) (b : Block) :
    lastAddr prv a (xs ++ [b]) = a + extent 29 xs := by
  induction xs generalizing prv a with
  | nil => simp [lastAddr]
  | cons x xs ih => simp only [List.cons_append, lastAddr, ih, extent_cons, Nat.add_assoc]

structure Holds (h : Heap) (bs : List Block) : Prop where
  initialized : h.heapInitialized = true
  head : h.heapHead = heapStart
  linked : Linked h.mem 0 heapStart bs 0
  arena : Arena 29 heapSize bs

theorem heapStart_eq : heapStart = 3145728 := rfl

theorem heapSize_eq : heapSize = 2097152 := rfl

theorem Linked.unique {m : Mem} {prv a : Nat} {bs cs : List Block} (ha : 0 < a)
    (hb : Linked m prv a bs 0) (hc : Linked m prv a cs 0) (hbs : bs ≠ []) (hcs : cs ≠ []) :
    bs = cs := by
  induction bs generalizing prv a cs with
  | nil => exact absurd rfl hbs
  | cons b bs ih =>
    obtain ⟨c, cs, rfl⟩ := List.exists_cons_of_ne_nil hcs
    have hsize : b.size = c.size := hb.1.size.symm.trans hc.1.size
    have hfree : b.free = c.free := by
      have h := hb.1.isFree.symm.trans hc.1.isFree
      cases hbf : b.free <;> cases hcf : c.free <;> simp_all
    have hnext := hb.1.next.symm.trans hc.1.next
    obtain rfl : b = c := by cases b; cases c; simp_all
    rcases bs with _ | ⟨b', bs⟩ <;> rcases cs with _ | ⟨c', cs⟩
    · rfl
    · simp only [headOr_nil, headOr_cons] at hnext
      omega
    · simp only [headOr_nil, headOr_cons] at hnext
      omega
    · exact congrArg _ (ih (by omega) hb.2 hc.2 (by simp) (by simp))

section Holds
variable {h : Heap} {bs : List Block}

theorem Holds.ne_nil (hh : Holds h bs) : bs ≠ [] := hh.arena.ne_nil (by decide)

theorem Holds.unique {cs : List Block} (hb : Holds h bs) (hc : Holds h cs) : bs = cs :=
  hb.linked.unique (by decide) hc.linked hb.ne_nil hc.ne_nil

theorem Holds.headOr (hh : Holds h bs) : headOr heapStart 0 bs = h.heapHead := by
  obtain ⟨b, cs, rfl⟩ := List.exists_cons_of_ne_nil hh.ne_nil
  exact hh.head.symm

theorem Holds.fits (hh : Holds h bs) : heapStart + extent 29 bs < 2 ^ 63 := by
  rw [hh.arena.fills]
  decide

theorem Holds.block {pre post : List Block} {b : Block} (hh : Holds h (pre ++ b :: post)) :
    HeaderAt h.mem (heapStart + extent 29 pre) b
      (Kmalloc.headOr (heapStart + extent 29 pre + (29 + b.size)) 0 post)
      (lastAddr 0 heapStart pre) ∧
    extent 29 pre + (29 + b.size) ≤ heapSize := by
  have hfills := hh.arena.fills
  rw [extent_append, extent_cons] at hfills
  exact ⟨(linked_append_cons.mp hh.linked).2.1, by omega⟩

end Holds

end AlvOS.Kmalloc
