import H3OS.Lib.Memory
/-!
# Computations that note what they read

A computation over byte memory together with the bytes it read, each as the
first address and how many. `Within n` says that it read nothing at or behind
`n`; along a sequence this splits into its steps, each at the value of the
step before it.
-/

namespace SysLib

/-- A result, and the bytes that were read for it. -/
structure Traced (α : Type) where
  val : α
  log : List (Nat × Nat)

namespace Traced

variable {α β : Type}

/-- The `w`-byte word at `a`. -/
def read (m : Mem) (a w : Nat) : Traced Nat := ⟨load m a w, [(a, w)]⟩

/-- A result for which nothing was read. -/
def ret (x : α) : Traced α := ⟨x, []⟩

/-- One computation after another. -/
def andThen (x : Traced α) (f : α → Traced β) : Traced β := ⟨(f x.val).val, x.log ++ (f x.val).log⟩

instance : Monad Traced where
  pure := ret
  bind := andThen

/-- Nothing at or behind `n` was read. -/
def Within (n : Nat) (x : Traced α) : Prop := ∀ r ∈ x.log, r.1 + r.2 ≤ n

instance (n : Nat) (x : Traced α) : Decidable (Within n x) := inferInstanceAs (Decidable (∀ r ∈ x.log, _))

section
variable {n : Nat}

@[simp] theorem pure_val (x : α) : (pure x : Traced α).val = x := rfl
@[simp] theorem read_val (m : Mem) (a w : Nat) : (read m a w).val = load m a w := rfl
@[simp] theorem bind_val (x : Traced α) (f : α → Traced β) : (x >>= f).val = (f x.val).val := rfl

@[simp] theorem ite_val {c : Prop} [Decidable c] (x y : Traced α) : (if c then x else y).val = if c then x.val else y.val :=
  apply_ite Traced.val c x y

@[simp] theorem within_pure (x : α) : Within n (pure x : Traced α) := by
  intro r hr
  cases hr

@[simp] theorem within_read {m : Mem} {a w : Nat} : Within n (read m a w) ↔ a + w ≤ n := by
  simp [Within, read]

@[simp] theorem within_bind {x : Traced α} {f : α → Traced β} :
    Within n (x >>= f) ↔ Within n x ∧ Within n (f x.val) := List.forall_mem_append

/-- Of a branch only the side that is taken counts. -/
theorem within_ite {c : Prop} [Decidable c] {x y : Traced α} :
    Within n (if c then x else y) ↔ (c → Within n x) ∧ (¬ c → Within n y) := by
  split_ifs with h <;> simp [h]

end

end Traced

end SysLib
