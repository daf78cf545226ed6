import H3OS.Interrupts.Stub
/-!
# A program and its interrupts

A program runs while interrupts arrive between any two of its steps. It ends
up where it would have without them, and the kernel where the interrupts
alone take it, each with the program's registers at that point for a frame.
-/
open SysLib

namespace H3OS.Interrupts

/-- The machines differ at most in what the handlers own and in the free part of the stack. -/
structure Agree (own : Nat → Prop) (bottom : Nat) (c d : Cpu) : Prop where
  regs : c.regs = d.regs
  rsp : c.rsp = d.rsp
  rip : c.rip = d.rip
  cs : c.cs = d.cs
  rflags : c.rflags = d.rflags
  ss : c.ss = d.ss
  mem : ∀ x, Kept own bottom c x → c.mem x = d.mem x

/-- The program does not look at what the handlers own, nor below its stack pointer. -/
def Respects (own : Nat → Prop) (bottom : Nat) (prog : Cpu → Cpu) : Prop :=
  ∀ c d, Agree own bottom c d → Agree own bottom (prog c) (prog d)

/-- The stack has room for a frame, and nothing on it is the handlers'. -/
structure Room (own : Nat → Prop) (bottom : Nat) (c : Cpu) : Prop where
  rsp : c.rsp < 2 ^ 64
  room : bottom + 200 ≤ c.rsp
  apart : ∀ x, bottom ≤ x → x < c.rsp → ¬ own x

section
variable {σ : Type} {own : Nat → Prop} {bottom : Nat} (C : Compiled σ own bottom) (isr_stub_table : Nat → Nat)
  (code : Nat → Option (List Instr)) (prog : Cpu → Cpu)

/-- `n` steps of the program with interrupts in between; the log has each vector with the number of steps before it. -/
inductive Runs (s₀ : Machine σ) : Machine σ → Nat → List (Nat × Nat) → Prop
  | start : Runs s₀ s₀ 0 []
  | step {s n log} : Runs s₀ s n log → Runs s₀ { s with cpu := prog s.cpu } (n + 1) log
  | interrupt {s s' n log} (v : Nat) : Runs s₀ s n log → 32 ≤ v → v < 256 → Room own bottom s.cpu →
      interrupt C (idt_init isr_stub_table) code s v none = some s' → Runs s₀ s' n (log ++ [(n, v)])

/-- The kernel after the interrupts, each with the frame of the program alone. -/
def dispatched (s₀ : Machine σ) (log : List (Nat × Nat)) : Option (Kernel σ) :=
  log.foldlM (fun k e => isr_dispatch k ((prog^[e.1] s₀.cpu).context e.2 none)) s₀.kernel

variable {C isr_stub_table code prog} {s s₀ s' : Machine σ} {n v : Nat} {log : List (Nat × Nat)} {c d e : Cpu}

theorem Agree.refl (c : Cpu) : Agree own bottom c c := ⟨rfl, rfl, rfl, rfl, rfl, rfl, fun _ _ => rfl⟩

theorem Agree.kept (h : Agree own bottom c d) {x : Nat} : Kept own bottom c x ↔ Kept own bottom d x := by
  unfold Kept
  rw [h.rsp]

theorem Agree.trans (h : Agree own bottom c d) (h' : Agree own bottom d e) : Agree own bottom c e :=
  ⟨h.regs.trans h'.regs, h.rsp.trans h'.rsp, h.rip.trans h'.rip, h.cs.trans h'.cs, h.rflags.trans h'.rflags,
    h.ss.trans h'.ss, fun x hx => (h.mem x hx).trans (h'.mem x (h.kept.1 hx))⟩

theorem Agree.context (h : Agree own bottom c d) (error : Option UInt64) : c.context v error = d.context v error := by
  unfold Cpu.context
  rw [h.regs, h.rip, h.cs, h.rflags, h.rsp, h.ss]

/-- No vector from 32 on is a panic. -/
theorem dispatch_some (k : Kernel σ) {f : interrupt_frame_t} (h : 32 ≤ f.int_no) : ∃ k', isr_dispatch k f = some k' := by
  unfold isr_dispatch
  rw [if_neg (UInt64.not_lt.2 h)]
  split_ifs
  · exact ⟨_, rfl⟩
  · exact ⟨_, rfl⟩

theorem no_error_code (h : 32 ≤ v) : (none : Option UInt64).isSome ↔ v ∈ ISR_ERR := by
  unfold ISR_ERR
  simp
  omega

variable (hcode : ∀ v < 256, isr_stub_table v < 2 ^ 64 ∧ code (isr_stub_table v) = some (isr_stub v))
include hcode

/-- An interrupt returns, to a machine that the program cannot tell from the one interrupted. -/
theorem interrupt_step (h32 : 32 ≤ v) (hv : v < 256) (hroom : Room own bottom s.cpu) :
    ∃ s', interrupt C (idt_init isr_stub_table) code s v none = some s' ∧ Agree own bottom s'.cpu s.cpu ∧
      isr_dispatch s.kernel (s.cpu.context v none) = some s'.kernel := by
  obtain ⟨m, hm, heq⟩ := interrupt_eq C hcode hv (no_error_code h32) hroom.rsp hroom.room hroom.apart
  have hno : (32 : UInt64) ≤ (s.cpu.context v none).int_no := by
    show (32 : UInt64) ≤ UInt64.ofNat v
    rw [UInt64.le_iff_toNat_le, UInt64.toNat_ofNat']
    exact h32.trans (Nat.mod_eq_of_lt (by omega)).ge
  obtain ⟨k, hk⟩ := dispatch_some s.kernel hno
  rw [hk] at heq
  exact ⟨_, heq, ⟨rfl, rfl, rfl, rfl, rfl, rfl, hm⟩, hk⟩

theorem Runs.agree (hprog : Respects own bottom prog) (h : Runs C isr_stub_table code prog s₀ s n log) :
    Agree own bottom s.cpu (prog^[n] s₀.cpu) ∧ dispatched prog s₀ log = some s.kernel := by
  induction h with
  | start => exact ⟨.refl _, rfl⟩
  | step _ ih =>
    rw [Function.iterate_succ_apply']
    exact ⟨hprog _ _ ih.1, ih.2⟩
  | interrupt v _ h32 hv hroom he ih =>
    obtain ⟨t, ht, hagree, hk⟩ := interrupt_step (C := C) hcode h32 hv hroom
    rw [he] at ht
    cases ht
    refine ⟨hagree.trans ih.1, ?_⟩
    unfold dispatched at ih ⊢
    rw [List.foldlM_append, ih.2]
    rw [ih.1.context] at hk
    show (isr_dispatch _ _).bind _ = _
    rw [hk]
    rfl

end

/-! A program of instructions that do nothing, with a tick after the first. -/

def nop (c : Cpu) : Cpu := { c with rip := c.rip + 1 }

/-- Compiled code that leaves registers and memory as they are. -/
def quiet : Compiled Nat (fun _ => False) 0 :=
  ⟨fun _ c => c, Cpu.rflags, fun _ _ _ => ⟨rfl, fun _ _ => rfl, fun _ _ _ => rfl⟩⟩

/-- The stubs lie one after the other. -/
def stubs_at (a : Nat) : Option (List Instr) := if a < 256 then some (isr_stub a) else none

/-- The timer's handler counts. -/
def counting : Machine Nat :=
  ⟨⟨fun _ => 7, 0x8000, 0x100000, 0x08, 0x202, 0x10, fun _ => 0⟩,
    ⟨fun irq => if irq = 0 then some fun _ ticks => ticks + 1 else none, 0,
      pic_init ⟨⟨0, 0, 0, 0, 0, false⟩, ⟨0, 0, 0, 0, 0, false⟩⟩⟩⟩

theorem stubs_code : ∀ v < 256, id v < 2 ^ 64 ∧ stubs_at (id v) = some (isr_stub v) := by
  intro v hv
  exact ⟨show v < 2 ^ 64 by omega, if_pos hv⟩

theorem nop_respects : Respects (fun _ => False) 0 nop := by
  intro c d h
  refine ⟨h.regs, h.rsp, ?_, h.cs, h.rflags, h.ss, h.mem⟩
  show c.rip + 1 = d.rip + 1
  rw [h.rip]

end H3OS.Interrupts
