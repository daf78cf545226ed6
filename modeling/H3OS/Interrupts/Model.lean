import H3OS.Lib.Loop
import H3OS.Lib.Stack
/-!
# The way into the kernel and back

`kernel/arch/x86_64/isr.asm` and `idt.c`: the gates, the 256 stubs with their
common part, `isr_dispatch` and the two interrupt controllers. The processor's
part is here as well: how it enters a gate, and what the instructions of the
stubs do.

`isr_dispatch` is compiled code. What it does to registers and memory is left
open up to what the calling convention promises; what it does to the
kernel's data and the interrupt controller is the definition here.
-/
open SysLib

namespace H3OS.Interrupts

/-- The general registers but the stack pointer. -/
inductive Reg where
  | rax | rbx | rcx | rdx | rsi | rdi | rbp | r8 | r9 | r10 | r11 | r12 | r13 | r14 | r15
deriving DecidableEq, Repr

structure Cpu where
  regs : Reg → UInt64
  rsp : Nat
  rip : UInt64
  cs : UInt64
  rflags : UInt64
  ss : UInt64
  mem : Mem

def Cpu.push (c : Cpu) (v : UInt64) : Cpu := { c with rsp := c.rsp - 8, mem := store c.mem (c.rsp - 8) 8 v.toNat }

/-- The word at `a`. -/
def Cpu.word (c : Cpu) (a : Nat) : UInt64 := UInt64.ofNat (load c.mem a 8)

structure interrupt_frame_t where
  regs : Reg → UInt64
  int_no : UInt64
  err_code : UInt64
  rip : UInt64
  cs : UInt64
  rflags : UInt64
  rsp : UInt64
  ss : UInt64

/-- The registers of a frame in the order of its fields, from r15 up to rax. -/
def FRAME_REGS : List Reg := [.r15, .r14, .r13, .r12, .r11, .r10, .r9, .r8, .rbp, .rdi, .rsi, .rdx, .rcx, .rbx, .rax]

/-- The frame behind a pointer. -/
def Cpu.frame (c : Cpu) (p : Nat) : interrupt_frame_t where
  regs r := c.word (p + 8 * FRAME_REGS.idxOf r)
  int_no := c.word (p + 120)
  err_code := c.word (p + 128)
  rip := c.word (p + 136)
  cs := c.word (p + 144)
  rflags := c.word (p + 152)
  rsp := c.word (p + 160)
  ss := c.word (p + 168)

/-! ## The gates -/

structure idt_entry_t where
  offset_low : Nat
  selector : Nat
  ist : Nat
  type_attr : Nat
  offset_mid : Nat
  offset_high : Nat
  zero : Nat

def idt_set (idt : Nat → idt_entry_t) (vec handler type_attr : Nat) : Nat → idt_entry_t :=
  Function.update idt vec ⟨handler &&& 0xFFFF, 0x08, 0, type_attr, (handler >>> 16) &&& 0xFFFF,
    (handler >>> 32) &&& 0xFFFFFFFF, 0⟩

/-- The gates of `idt_init`. -/
def idt_init (isr_stub_table : Nat → Nat) : Nat → idt_entry_t :=
  forRange 0 256 (fun i idt => idt_set idt i (isr_stub_table i) 0x8E) fun _ => ⟨0, 0, 0, 0, 0, 0, 0⟩

/-- The address a gate leads to. -/
def idt_entry_t.offset (g : idt_entry_t) : Nat := g.offset_low ||| g.offset_mid <<< 16 ||| g.offset_high <<< 32

/-- The gate is a present 64-bit interrupt gate: it turns interrupts off. -/
def idt_entry_t.IsInterrupt (g : idt_entry_t) : Prop := g.type_attr &&& 0x8F = 0x8E

instance (g : idt_entry_t) : Decidable g.IsInterrupt := inferInstanceAs (Decidable (_ = _))

/-! ## The stubs -/

inductive Instr where
  | push_imm (v : UInt64)
  | push (r : Reg)
  | pop (r : Reg)
  | mov_rdi_rsp
  | call_isr_dispatch
  | add_rsp (n : Nat)
  | iretq

/-- The vectors of the stubs `ISR_ERR`, where the processor has pushed an error code. -/
def ISR_ERR : List Nat := [8, 10, 11, 12, 13, 14, 17, 21]

/-- The registers in the order in which `isr_common` pushes them. -/
def PUSHED : List Reg := [.rax, .rbx, .rcx, .rdx, .rsi, .rdi, .rbp, .r8, .r9, .r10, .r11, .r12, .r13, .r14, .r15]

/-- And pops them. -/
def POPPED : List Reg := [.r15, .r14, .r13, .r12, .r11, .r10, .r9, .r8, .rbp, .rdi, .rsi, .rdx, .rcx, .rbx, .rax]

def isr_common : List Instr :=
  PUSHED.map .push ++ [.mov_rdi_rsp, .call_isr_dispatch] ++ POPPED.map .pop ++ [.add_rsp 16, .iretq]

/-- `isr_stub_v`, with the jump to `isr_common` followed. -/
def isr_stub (v : Nat) : List Instr :=
  if v ∈ ISR_ERR then .push_imm (UInt64.ofNat v) :: isr_common
  else .push_imm 0 :: .push_imm (UInt64.ofNat v) :: isr_common

/-! ## The interrupt controllers -/

/-- An 8259: its mask, the lines that ask, the lines in service, and the first vector. -/
structure Chip where
  imr : BitVec 8
  irr : BitVec 8
  isr : BitVec 8
  base : BitVec 8
  /-- The initialization word that is due, 0 for none. -/
  icw : Nat
  icw4 : Bool

def bit (i : Nat) : BitVec 8 := 1#8 <<< i

/-- The lowest line of which `p` holds; it has the highest priority. -/
def lowest (p : Nat → Bool) : Option Nat := (List.range 8).find? p

/-- An initialization starts over, or the highest line in service is done. -/
def Chip.command (c : Chip) (v : BitVec 8) : Chip :=
  if v.getLsbD 4 then { c with imr := 0, irr := 0, isr := 0, icw := 2, icw4 := v.getLsbD 0 } else
  if v = 0x20 then
    match lowest c.isr.getLsbD with
    | some i => { c with isr := c.isr &&& ~~~ bit i }
    | none => c
  else c

def Chip.data (c : Chip) (v : BitVec 8) : Chip :=
  match c.icw with
  | 2 => { c with base := v &&& 0xF8, icw := 3 }
  | 3 => { c with icw := if c.icw4 then 4 else 0 }
  | 4 => { c with icw := 0 }
  | _ => { c with imr := v }

/-- The line that the chip puts forward: it asks, is not masked, and none as high or higher is in service. -/
def Chip.pick (c : Chip) : Option Nat :=
  if c.icw ≠ 0 then none else
  lowest fun i => c.irr.getLsbD i && !c.imr.getLsbD i && (List.range (i + 1)).all fun j => !c.isr.getLsbD j

/-- The chip's line `i` goes into service. -/
def Chip.serve (c : Chip) (i : Nat) : Chip := { c with irr := c.irr &&& ~~~ bit i, isr := c.isr ||| bit i }

structure Pics where
  master : Chip
  slave : Chip

def outb (p : Pics) (port : Nat) (v : BitVec 8) : Pics :=
  match port with
  | 0x20 => { p with master := p.master.command v }
  | 0x21 => { p with master := p.master.data v }
  | 0xA0 => { p with slave := p.slave.command v }
  | 0xA1 => { p with slave := p.slave.data v }
  | _ => p

/-- Reading the data ports gives the masks. -/
def inb (p : Pics) (port : Nat) : BitVec 8 :=
  match port with
  | 0x21 => p.master.imr
  | 0xA1 => p.slave.imr
  | _ => 0

/-- The second chip asks on line 2 of the first. -/
def Pics.cascade (p : Pics) : Chip :=
  { p.master with irr := if p.slave.pick.isSome then p.master.irr ||| bit 2 else p.master.irr &&& ~~~ bit 2 }

/-- The vector with which the processor is interrupted. -/
def Pics.deliver (p : Pics) : Option (Nat × Pics) :=
  match p.cascade.pick with
  | none => none
  | some 2 =>
    match p.slave.pick with
    | none => none
    | some j => some (p.slave.base.toNat + j, ⟨p.master.serve 2, p.slave.serve j⟩)
  | some i => some (p.master.base.toNat + i, { p with master := p.master.serve i })

/-- A device on one of the 16 lines asks. -/
def Pics.ask (p : Pics) (irq : Nat) : Pics :=
  if irq < 8 then { p with master := { p.master with irr := p.master.irr ||| bit irq } }
  else { p with slave := { p.slave with irr := p.slave.irr ||| bit (irq - 8) } }

def pic_init (p : Pics) : Pics :=
  let p := outb p 0x20 0x11
  let p := outb p 0xA0 0x11
  let p := outb p 0x21 0x20
  let p := outb p 0xA1 0x28
  let p := outb p 0x21 0x04
  let p := outb p 0xA1 0x02
  let p := outb p 0x21 0x01
  let p := outb p 0xA1 0x01
  let p := outb p 0x21 0xFC
  outb p 0xA1 0xFF

def irq_ack (p : Pics) (irq : Nat) : Pics :=
  let p := if irq ≥ 8 then outb p 0xA0 0x20 else p
  outb p 0x20 0x20

/-! ## Dispatch -/

/-- `irq_handlers` with the data behind them, and the controllers. -/
structure Kernel (σ : Type) where
  irq_handlers : Nat → Option (interrupt_frame_t → σ → σ)
  data : σ
  pic : Pics

section
variable {σ : Type}

def irq_install (k : Kernel σ) (irq : Nat) (handler : interrupt_frame_t → σ → σ) : Kernel σ :=
  if irq < 16 then
    { k with
      irq_handlers := Function.update k.irq_handlers irq (some handler)
      pic := if irq < 8 then outb k.pic 0x21 (inb k.pic 0x21 &&& ~~~ bit irq)
        else outb k.pic 0xA1 (inb k.pic 0xA1 &&& ~~~ bit (irq - 8)) }
  else k

/-- `none` is a panic. -/
def isr_dispatch (k : Kernel σ) (frame : interrupt_frame_t) : Option (Kernel σ) :=
  if frame.int_no < 32 then none else
  if frame.int_no < 48 then
    let irq := (frame.int_no - 32).toNat
    let data := match k.irq_handlers irq with
      | some handler => handler frame k.data
      | none => k.data
    some { k with data := data, pic := irq_ack k.pic irq }
  else some k

end

/-! ## Running a stub -/

/-- The registers that a called function gives back as they were. -/
def CALLEE_SAVED : List Reg := [.rbx, .rbp, .r12, .r13, .r14, .r15]

/-- The compiled `isr_dispatch`, on a stack that begins at `bottom`: entered with the stack aligned it gives back the
stack pointer and the registers that it has to, and writes to its own part of the stack and to the bytes `own` only. -/
structure Compiled (σ : Type) (own : Nat → Prop) (bottom : Nat) where
  run : Kernel σ → Cpu → Cpu
  /-- The flags after an addition. -/
  flags : Cpu → UInt64
  keeps : ∀ k c, c.rsp % 16 = 8 → (run k c).rsp = c.rsp ∧ (∀ r ∈ CALLEE_SAVED, (run k c).regs r = c.regs r) ∧
    ∀ x, ¬ own x → (x < bottom ∨ c.rsp ≤ x) → (run k c).mem x = c.mem x

structure Machine (σ : Type) where
  cpu : Cpu
  kernel : Kernel σ

section
variable {σ : Type} {own : Nat → Prop} {bottom : Nat} (C : Compiled σ own bottom)

def exec (s : Machine σ) : Instr → Option (Machine σ)
  | .push_imm v => some { s with cpu := s.cpu.push v }
  | .push r => some { s with cpu := s.cpu.push (s.cpu.regs r) }
  | .pop r => some { s with cpu := { s.cpu with
      regs := Function.update s.cpu.regs r (s.cpu.word s.cpu.rsp), rsp := s.cpu.rsp + 8 } }
  | .mov_rdi_rsp => some { s with cpu := { s.cpu with regs := Function.update s.cpu.regs .rdi (UInt64.ofNat s.cpu.rsp) } }
  | .call_isr_dispatch =>
    match isr_dispatch s.kernel (s.cpu.frame (s.cpu.regs .rdi).toNat) with
    | none => none
    | some k =>
      -- the return address, which `ret` takes off again
      let c := C.run s.kernel (s.cpu.push s.cpu.rip)
      some ⟨{ c with rsp := c.rsp + 8 }, k⟩
  | .add_rsp n => some { s with cpu := { s.cpu with rsp := s.cpu.rsp + n, rflags := C.flags s.cpu } }
  | .iretq => some { s with cpu := { s.cpu with
      rip := s.cpu.word s.cpu.rsp, cs := s.cpu.word (s.cpu.rsp + 8), rflags := s.cpu.word (s.cpu.rsp + 16),
      rsp := (s.cpu.word (s.cpu.rsp + 24)).toNat, ss := s.cpu.word (s.cpu.rsp + 32) } }

def execAll (s : Machine σ) : List Instr → Option (Machine σ)
  | [] => some s
  | i :: is => (exec C s i).bind fun s => execAll s is

/-- What the processor pushes for an interrupt or an exception, on an aligned stack. -/
def Cpu.pushed (c : Cpu) (error : Option UInt64) : List UInt64 :=
  [c.ss, UInt64.ofNat c.rsp, c.rflags, c.cs, c.rip] ++ error.toList

/-- The processor goes through a gate: it traces no more, takes no more interrupts, and clears NT, RF and VM. -/
def Cpu.enter (c : Cpu) (g : idt_entry_t) (error : Option UInt64) : Cpu :=
  let sp := c.rsp / 16 * 16
  { c with
    mem := pushAll c.mem sp ((c.pushed error).map UInt64.toNat)
    rsp := sp - 8 * (c.pushed error).length
    rip := UInt64.ofNat g.offset
    cs := UInt64.ofNat g.selector
    rflags := c.rflags &&& ~~~ 0x34300 }

/-- An interrupt or an exception: through the gate, the stub, and back. -/
def interrupt (idt : Nat → idt_entry_t) (code : Nat → Option (List Instr)) (s : Machine σ) (v : Nat) (error : Option UInt64) :
    Option (Machine σ) :=
  if (idt v).IsInterrupt then
    match code (idt v).offset with
    | none => none
    | some is => execAll C { s with cpu := s.cpu.enter (idt v) error } is
  else none

end

end H3OS.Interrupts
