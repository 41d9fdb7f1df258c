import AlvOS.Lib.ByteMemory

/-! Computations that keep a record of the loads they make, so that what a piece of
code touches can be stated beside what it answers. -/

namespace ByteMemory

/-- A result and the loads made for it, oldest first: an address and a number of bytes. -/
structure Loads (α : Type) where
  result : α
  loads : List (Nat × Nat)

namespace Loads
variable {α β : Type}

def done (a : α) : Loads α := ⟨a, []⟩

def andThen (x : Loads α) (f : α → Loads β) : Loads β :=
  ⟨(f x.result).result, x.loads ++ (f x.result).loads⟩

@[simp] theorem result_done (a : α) : (done a).result = a := rfl

@[simp] theorem loads_done (a : α) : (done a).loads = [] := rfl

@[simp] theorem result_andThen (x : Loads α) (f : α → Loads β) :
    (x.andThen f).result = (f x.result).result := rfl

@[simp] theorem loads_andThen (x : Loads α) (f : α → Loads β) :
    (x.andThen f).loads = x.loads ++ (f x.result).loads := rfl

@[simp] theorem result_ite (c : Prop) [Decidable c] (x y : Loads α) :
    (if c then x else y).result = if c then x.result else y.result := apply_ite result c x y

@[simp] theorem loads_ite (c : Prop) [Decidable c] (x y : Loads α) :
    (if c then x else y).loads = if c then x.loads else y.loads := apply_ite loads c x y

end Loads

namespace Record
variable {F : Type} (R : Record F) (m : Mem) (a : Nat) (f : F)

def fetch : Loads Nat := ⟨R.load m a f, [(a + R.offset f, R.width f)]⟩

@[simp] theorem result_fetch : (R.fetch m a f).result = R.load m a f := rfl

@[simp] theorem loads_fetch : (R.fetch m a f).loads = [(a + R.offset f, R.width f)] := rfl

end Record

end ByteMemory
