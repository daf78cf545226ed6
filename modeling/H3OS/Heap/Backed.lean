import H3OS.Heap.Theorems
import H3OS.Pmm.Bits
/-!
# The heap on the page allocator

`kmalloc` with the page allocator that it grows from: where `Heap.Model` takes
the answers of `pmm_alloc_pages` as an argument, here they are what the
allocator gives. Each call is one of the heap's with some list of answers.
-/
open SysLib

namespace H3OS.Backed

structure St where
  pmm : Pmm.St
  heap : Heap.St

def attempts (size : Nat) : Nat → St → Option (Nat × St)
  | 0, s => some (0, s)
  | k + 1, s =>
    match Heap.find_fit s.heap.mem size Heap.FUEL s.heap.heap_head with
    | none => none
    | some 0 =>
      let (phys, pmm) := Pmm.pmm_alloc_pages s.pmm (Heap.expand_pages size)
      match Heap.expand_heap s.heap size phys with
      | (false, heap) => some (0, ⟨pmm, heap⟩)
      | (true, heap) => attempts size k ⟨pmm, heap⟩
    | some b =>
      let (p, heap) := Heap.take_block s.heap b size
      some (p, { s with heap := heap })

def kmalloc (s : St) (size : Nat) : Option (Nat × St) :=
  if size = 0 then some (0, s) else attempts (Heap.request size) 2 s

theorem attempts_answers (size k : Nat) (s : St) : ∃ pmm : List Nat,
    Heap.attempts size k s.heap pmm = (attempts size k s).map (fun r => (r.1, r.2.heap)) := by
  induction k generalizing s with
  | zero => exact ⟨[], rfl⟩
  | succ k ih =>
    unfold Heap.attempts attempts
    rcases hf : Heap.find_fit s.heap.mem size Heap.FUEL s.heap.heap_head with _ | _ | b
    · exact ⟨[], rfl⟩
    · dsimp only
      unfold Heap.expand_heap
      by_cases hphys : (Pmm.pmm_alloc_pages s.pmm (Heap.expand_pages size)).1 = 0
      · refine ⟨[0], ?_⟩
        simp [hphys]
      · obtain ⟨pmm, h⟩ := ih ⟨(Pmm.pmm_alloc_pages s.pmm (Heap.expand_pages size)).2,
          Heap.heap_add_region s.heap (Pmm.pmm_alloc_pages s.pmm (Heap.expand_pages size)).1
            (Heap.expand_pages size * PAGE_SIZE)⟩
        refine ⟨(Pmm.pmm_alloc_pages s.pmm (Heap.expand_pages size)).1 :: pmm, ?_⟩
        simp [hphys, h]
    · exact ⟨[], rfl⟩

/-- A call is one of the heap alone, with what the page allocator answers as the answers. -/
theorem kmalloc_answers (s : St) (size : Nat) : ∃ pmm : List Nat,
    Heap.kmalloc s.heap size pmm = (kmalloc s size).map (fun r => (r.1, r.2.heap)) := by
  unfold Heap.kmalloc kmalloc
  by_cases hz : size = 0
  · exact ⟨[], by rw [if_pos hz, if_pos hz]; rfl⟩
  · obtain ⟨pmm, h⟩ := attempts_answers (Heap.request size) 2 s
    exact ⟨pmm, by rw [if_neg hz, if_neg hz]; exact h⟩

end H3OS.Backed
