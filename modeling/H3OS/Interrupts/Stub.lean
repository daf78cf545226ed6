import H3OS.Interrupts.Model
/-!
# The stubs give the machine back

Through its gate every vector runs the stub of its number, and the frame that
`isr_dispatch` sees is the interrupted machine. When the processor pushes
an error code for just the vectors of `ISR_ERR`, the machine continues as if it had not
been interrupted: the registers, the flags and the stack pointer are as they were, and
memory but for what lies below the stack pointer and what the handlers own.
-/
open SysLib

namespace H3OS.Interrupts

/-! ## The gates -/

section
variable {isr_stub_table : Nat → Nat} {v : Nat}

/-- The three parts of an address are the address. -/
theorem offset_split {a : Nat} (ha : a < 2 ^ 64) :
    (a &&& 0xFFFF) ||| ((a >>> 16) &&& 0xFFFF) <<< 16 ||| ((a >>> 32) &&& 0xFFFFFFFF) <<< 32 = a := by
  have hlow : a &&& 0xFFFF = a % 2 ^ 16 := Nat.and_two_pow_sub_one_eq_mod a 16
  have hmid : (a >>> 16) &&& 0xFFFF = a / 2 ^ 16 % 2 ^ 16 := by
    rw [Nat.shiftRight_eq_div_pow]
    exact Nat.and_two_pow_sub_one_eq_mod _ 16
  have hhigh : (a >>> 32) &&& 0xFFFFFFFF = a / 2 ^ 32 % 2 ^ 32 := by
    rw [Nat.shiftRight_eq_div_pow]
    exact Nat.and_two_pow_sub_one_eq_mod _ 32
  have hfirst : a % 2 ^ 16 ||| a / 2 ^ 16 % 2 ^ 16 * 2 ^ 16 = a / 2 ^ 16 % 2 ^ 16 * 2 ^ 16 + a % 2 ^ 16 := by
    rw [Nat.or_comm]
    exact or_low (Nat.mul_mod_left _ _) (Nat.mod_lt _ (by norm_num))
  rw [hlow, hmid, hhigh, Nat.shiftLeft_eq, Nat.shiftLeft_eq, hfirst, Nat.or_comm, or_low (Nat.mul_mod_left _ _) (by omega)]
  omega

theorem idt_init_at (hv : v < 256) : idt_init isr_stub_table v =
    ⟨isr_stub_table v &&& 0xFFFF, 0x08, 0, 0x8E, (isr_stub_table v >>> 16) &&& 0xFFFF,
      (isr_stub_table v >>> 32) &&& 0xFFFFFFFF, 0⟩ := by
  refine forRange_inv (fun n (idt : Nat → idt_entry_t) => ∀ v < n, idt v =
    ⟨isr_stub_table v &&& 0xFFFF, 0x08, 0, 0x8E, (isr_stub_table v >>> 16) &&& 0xFFFF,
      (isr_stub_table v >>> 32) &&& 0xFFFFFFFF, 0⟩) (Nat.zero_le _) ?_ ?_ v hv
  · exact fun v hv => absurd hv (Nat.not_lt_zero v)
  · intro i idt _ _ hI v hv
    show idt_set idt i (isr_stub_table i) 0x8E v = _
    unfold idt_set
    by_cases h : v = i
    · rw [h, Function.update_self]
    · rw [Function.update_of_ne h]
      exact hI v (by omega)

/-- Every gate is an interrupt gate that leads to its stub. -/
theorem gate_leads (hv : v < 256) (ha : isr_stub_table v < 2 ^ 64) :
    (idt_init isr_stub_table v).IsInterrupt ∧ (idt_init isr_stub_table v).offset = isr_stub_table v := by
  rw [idt_init_at hv]
  exact ⟨show 0x8E &&& 0x8F = 0x8E from rfl, offset_split ha⟩

end

/-! ## Pushing and popping -/

section
variable {σ : Type} {own : Nat → Prop} {bottom : Nat} (C : Compiled σ own bottom) {s : Machine σ}

theorem execAll_append (is js : List Instr) : execAll C s (is ++ js) = (execAll C s is).bind fun t => execAll C t js := by
  induction is generalizing s with
  | nil => rfl
  | cons i is ih =>
    rw [List.cons_append, execAll, execAll, Option.bind_assoc]
    congr 1
    funext t
    exact ih

theorem exec_pushes (rs : List Reg) : execAll C s (rs.map .push) = some { s with cpu := { s.cpu with
    rsp := s.cpu.rsp - 8 * rs.length, mem := pushAll s.cpu.mem s.cpu.rsp (rs.map fun r => (s.cpu.regs r).toNat) } } := by
  induction rs generalizing s with
  | nil => rfl
  | cons r rs ih =>
    rw [List.map_cons, execAll, exec, Option.bind_some, ih, List.length_cons]
    rw [show s.cpu.rsp - 8 * (rs.length + 1) = s.cpu.rsp - 8 - 8 * rs.length by omega]
    rfl

theorem exec_imms (vs : List UInt64) : execAll C s (vs.map .push_imm) = some { s with cpu := { s.cpu with
    rsp := s.cpu.rsp - 8 * vs.length, mem := pushAll s.cpu.mem s.cpu.rsp (vs.map UInt64.toNat) } } := by
  induction vs generalizing s with
  | nil => rfl
  | cons v vs ih =>
    rw [List.map_cons, execAll, exec, Option.bind_some, ih, List.length_cons]
    rw [show s.cpu.rsp - 8 * (vs.length + 1) = s.cpu.rsp - 8 - 8 * vs.length by omega]
    rfl

/-- Popping puts the words on the stack into the registers. -/
theorem exec_pops {rs : List Reg} {v : Reg → UInt64} (h : Stacked s.cpu.mem s.cpu.rsp (rs.map fun r => (v r).toNat)) :
    execAll C s (rs.map .pop) = some { s with cpu := { s.cpu with
      regs := fun r => if r ∈ rs then v r else s.cpu.regs r, rsp := s.cpu.rsp + 8 * rs.length } } := by
  induction rs generalizing s with
  | nil => simp [execAll]
  | cons r rs ih =>
    have hword : s.cpu.word s.cpu.rsp = v r := by
      rw [Cpu.word, h.1, UInt64.ofNat_toNat]
    have hregs : (fun q => if q ∈ rs then v q else Function.update s.cpu.regs r (v r) q) =
        fun q => if q ∈ r :: rs then v q else s.cpu.regs q := by
      funext q
      by_cases hq : q = r
      · simp [hq]
      · simp [hq]
    rw [List.map_cons, execAll, exec, Option.bind_some, hword, ih h.2, hregs, List.length_cons]
    rw [show s.cpu.rsp + 8 + 8 * rs.length = s.cpu.rsp + 8 * (rs.length + 1) by omega]

/-! ## Frames -/

attribute [local irreducible] Stacked pushAll load store UInt64.ofNat

/-- The frame that tells of the machine. -/
def Cpu.context (c : Cpu) (v : Nat) (error : Option UInt64) : interrupt_frame_t :=
  ⟨c.regs, UInt64.ofNat v, error.getD 0, c.rip, c.cs, c.rflags, UInt64.ofNat c.rsp, c.ss⟩

def interrupt_frame_t.words (f : interrupt_frame_t) : List Nat :=
  FRAME_REGS.map (fun r => (f.regs r).toNat) ++ [f.int_no.toNat, f.err_code.toNat, f.rip.toNat, f.cs.toNat,
    f.rflags.toNat, f.rsp.toNat, f.ss.toNat]

theorem interrupt_frame_t.words_length (f : interrupt_frame_t) : f.words.length = 22 := rfl

theorem interrupt_frame_t.words_lt (f : interrupt_frame_t) : ∀ w ∈ f.words, w < 2 ^ 64 := by
  intro w hw
  unfold interrupt_frame_t.words FRAME_REGS at hw
  simp only [List.map_cons, List.map_nil, List.cons_append, List.nil_append, List.mem_cons, List.not_mem_nil, or_false] at hw
  rcases hw with h | h | h | h | h | h | h | h | h | h | h | h | h | h | h | h | h | h | h | h | h | h <;>
    exact h ▸ UInt64.toNat_lt _

theorem frame_of_words {c : Cpu} {p : Nat} {f : interrupt_frame_t} (h : Stacked c.mem p f.words) : c.frame p = f := by
  have hword : ∀ i (hi : i < 22) (w : UInt64), f.words.get ⟨i, hi⟩ = w.toNat → c.word (p + 8 * i) = w := by
    intro i hi w hw
    have hat : load c.mem (p + 8 * i) 8 = w.toNat := (h.get hi).trans hw
    rw [Cpu.word, hat, UInt64.ofNat_toNat]
  have hregs : ∀ r, c.word (p + 8 * FRAME_REGS.idxOf r) = f.regs r := by
    intro r
    cases r <;> exact hword _ (by decide) _ rfl
  unfold Cpu.frame
  simp only [hregs]
  rw [hword 15 (by decide) f.int_no rfl, hword 16 (by decide) f.err_code rfl, hword 17 (by decide) f.rip rfl,
    hword 18 (by decide) f.cs rfl, hword 19 (by decide) f.rflags rfl, hword 20 (by decide) f.rsp rfl,
    hword 21 (by decide) f.ss rfl]

/-! ## In and out -/

variable {v : Nat} {error : Option UInt64} {g : idt_entry_t}

/-- The stack pointer once the frame is complete. -/
def Cpu.frame_at (c : Cpu) : Nat := c.rsp / 16 * 16 - 176

/-- The machine with its frame on the stack. -/
def Cpu.framed (c : Cpu) (g : idt_entry_t) (v : Nat) (error : Option UInt64) : Cpu :=
  { c with
    mem := pushAll c.mem (c.rsp / 16 * 16) (c.context v error).words.reverse
    rsp := c.frame_at
    rip := UInt64.ofNat g.offset
    cs := UInt64.ofNat g.selector
    rflags := c.rflags &&& ~~~ 0x34300 }

theorem framed_mem (c : Cpu) (g : idt_entry_t) (v : Nat) (error : Option UInt64) : (c.framed g v error).mem =
    pushAll c.mem (c.rsp / 16 * 16) (c.context v error).words.reverse := by
  unfold Cpu.framed
  dsimp only

theorem framed_rsp (c : Cpu) (g : idt_entry_t) (v : Nat) (error : Option UInt64) : (c.framed g v error).rsp = c.rsp / 16 * 16 - 176 := by
  unfold Cpu.framed Cpu.frame_at
  dsimp only

/-- What `isr_stub_v` pushes. -/
def stub_pushed (v : Nat) : List UInt64 := if v ∈ ISR_ERR then [UInt64.ofNat v] else [0, UInt64.ofNat v]

theorem isr_stub_eq (v : Nat) : isr_stub v = (stub_pushed v).map .push_imm ++ isr_common := by
  unfold isr_stub stub_pushed
  split_ifs <;> rfl

theorem exec_common : execAll C s isr_common = execAll C { s with cpu := { s.cpu with
    rsp := s.cpu.rsp - 8 * PUSHED.length
    mem := pushAll s.cpu.mem s.cpu.rsp (PUSHED.map fun r => (s.cpu.regs r).toNat) } }
    ([.mov_rdi_rsp, .call_isr_dispatch] ++ (POPPED.map .pop ++ [.add_rsp 16, .iretq])) := by
  rw [isr_common, List.append_assoc, List.append_assoc, execAll_append, exec_pushes, Option.bind_some]

/-- The processor, the stub and the common part push the frame. -/
theorem pushed_frame (c : Cpu) (hconv : error.isSome ↔ v ∈ ISR_ERR) :
    ((c.pushed error).map UInt64.toNat ++ (stub_pushed v).map UInt64.toNat) ++ PUSHED.map (fun r => (c.regs r).toNat) =
      (c.context v error).words.reverse ∧ (c.pushed error).length + (stub_pushed v).length = 7 := by
  cases error with
  | none =>
    have hv : v ∉ ISR_ERR := fun h => absurd (hconv.2 h) (by simp)
    rw [stub_pushed, if_neg hv]
    exact ⟨rfl, rfl⟩
  | some e =>
    rw [stub_pushed, if_pos (hconv.1 rfl)]
    exact ⟨rfl, rfl⟩

theorem exec_enter (hconv : error.isSome ↔ v ∈ ISR_ERR) :
    execAll C { s with cpu := s.cpu.enter g error } (isr_stub v) =
      execAll C { s with cpu := s.cpu.framed g v error }
        ([.mov_rdi_rsp, .call_isr_dispatch] ++ (POPPED.map .pop ++ [.add_rsp 16, .iretq])) := by
  obtain ⟨hwords, hlen⟩ := pushed_frame s.cpu hconv
  have hpush := pushAll_append s.cpu.mem (s.cpu.rsp / 16 * 16)
    ((s.cpu.pushed error).map UInt64.toNat ++ (stub_pushed v).map UInt64.toNat) (PUSHED.map fun r => (s.cpu.regs r).toNat)
  rw [hwords, pushAll_append, List.length_append, List.length_map, List.length_map, Nat.mul_add, ← Nat.sub_sub] at hpush
  have hrsp : s.cpu.rsp / 16 * 16 - 8 * (s.cpu.pushed error).length - 8 * (stub_pushed v).length - 8 * PUSHED.length =
      s.cpu.frame_at := by
    have h15 : PUSHED.length = 15 := rfl
    unfold Cpu.frame_at
    omega
  rw [isr_stub_eq, execAll_append, exec_imms, Option.bind_some, exec_common]
  unfold Cpu.framed
  rw [hpush, ← hrsp]
  rfl

/-- Leaving takes the machine from the frame. -/
theorem exec_leave {f : interrupt_frame_t} (h : Stacked s.cpu.mem s.cpu.rsp f.words) :
    execAll C s (POPPED.map .pop ++ [.add_rsp 16, .iretq]) =
      some { s with cpu := ⟨f.regs, f.rsp.toNat, f.rip, f.cs, f.rflags, f.ss, s.cpu.mem⟩ } := by
  have hframe := frame_of_words h
  have hsplit : f.words = POPPED.map (fun r => (f.regs r).toNat) ++ [f.int_no.toNat, f.err_code.toNat, f.rip.toNat,
    f.cs.toNat, f.rflags.toNat, f.rsp.toNat, f.ss.toNat] := rfl
  have hpops : Stacked s.cpu.mem s.cpu.rsp (POPPED.map fun r => (f.regs r).toNat) := by
    rw [hsplit] at h
    exact (stacked_append.1 h).1
  have hregs : (fun r => if r ∈ POPPED then f.regs r else s.cpu.regs r) = f.regs := by
    funext r
    cases r <;> rfl
  have hpop : s.cpu.rsp + 8 * POPPED.length + 16 = s.cpu.rsp + 136 := by
    have h15 : POPPED.length = 15 := rfl
    omega
  have hword : ∀ a, UInt64.ofNat (load s.cpu.mem a 8) = s.cpu.word a := fun _ => rfl
  have hrip : s.cpu.word (s.cpu.rsp + 136) = f.rip := congrArg interrupt_frame_t.rip hframe
  have hcs : s.cpu.word (s.cpu.rsp + 144) = f.cs := congrArg interrupt_frame_t.cs hframe
  have hrflags : s.cpu.word (s.cpu.rsp + 152) = f.rflags := congrArg interrupt_frame_t.rflags hframe
  have hrsp : s.cpu.word (s.cpu.rsp + 160) = f.rsp := congrArg interrupt_frame_t.rsp hframe
  have hss : s.cpu.word (s.cpu.rsp + 168) = f.ss := congrArg interrupt_frame_t.ss hframe
  rw [execAll_append, exec_pops C hpops, Option.bind_some, hregs, execAll, exec, Option.bind_some, execAll, exec,
    Option.bind_some, execAll]
  simp only [Cpu.word, hpop, Nat.add_assoc, Nat.reduceAdd]
  simp only [hword, hrip, hcs, hrflags, hrsp, hss]

end

/-! ## The whole way -/

section
variable {σ : Type} {own : Nat → Prop} {bottom : Nat} (C : Compiled σ own bottom) {s : Machine σ} {v : Nat}
  {error : Option UInt64} {g : idt_entry_t} {isr_stub_table : Nat → Nat} {code : Nat → Option (List Instr)}

theorem framed_words (c : Cpu) (g : idt_entry_t) (v : Nat) (error : Option UInt64) (hroom : 200 ≤ c.rsp) :
    Stacked (c.framed g v error).mem (c.framed g v error).rsp (c.context v error).words := by
  have hlen : (c.context v error).words.reverse.length = 22 := rfl
  have hlt : ∀ w ∈ (c.context v error).words.reverse, w < 2 ^ 64 := fun w hw =>
    (c.context v error).words_lt w (List.mem_reverse.1 hw)
  have h := (show Stacked c.mem (c.rsp / 16 * 16) [] from stacked_nil).pushAll (by omega) hlt
  rw [framed_mem, framed_rsp]
  rwa [List.reverse_reverse, List.append_nil, hlen] at h

/-- The part of memory that neither the handlers nor the free part of the stack has. -/
def Kept (own : Nat → Prop) (bottom : Nat) (c : Cpu) (x : Nat) : Prop := ¬ own x ∧ (x < bottom ∨ c.rsp ≤ x)

/-- The machine `f` with the address of its frame in rdi. -/
def Cpu.passed (f : Cpu) : Cpu := { f with regs := Function.update f.regs .rdi (UInt64.ofNat f.rsp) }

/-- And when `isr_dispatch` has returned. -/
def Compiled.returned (k : Kernel σ) (f : Cpu) : Cpu :=
  { C.run k (f.passed.push f.rip) with rsp := (C.run k (f.passed.push f.rip)).rsp + 8 }

theorem exec_mov (f : Cpu) (k : Kernel σ) : exec C ⟨f, k⟩ .mov_rdi_rsp = some ⟨f.passed, k⟩ := rfl

theorem exec_call_passed (f : Cpu) (k : Kernel σ) : exec C ⟨f.passed, k⟩ .call_isr_dispatch =
    (isr_dispatch k (f.passed.frame (f.passed.regs .rdi).toNat)).map fun k' => ⟨C.returned k f, k'⟩ := by
  rw [exec]
  dsimp only
  cases isr_dispatch k (f.passed.frame (f.passed.regs .rdi).toNat) <;> rfl

/-- `isr_dispatch` is called with the frame on the stack. -/
theorem exec_call {f : Cpu} {fr : interrupt_frame_t} (h : Stacked f.mem f.rsp fr.words) (hf : f.rsp < 2 ^ 64) (k : Kernel σ)
    (is : List Instr) : execAll C ⟨f, k⟩ ([.mov_rdi_rsp, .call_isr_dispatch] ++ is) =
      (isr_dispatch k fr).bind fun k' => execAll C ⟨C.returned k f, k'⟩ is := by
  have hrdi : (f.passed.regs .rdi).toNat = f.rsp := by
    show (Function.update f.regs .rdi (UInt64.ofNat f.rsp) .rdi).toNat = f.rsp
    rw [Function.update_self, UInt64.toNat_ofNat']
    exact Nat.mod_eq_of_lt hf
  have hframe : f.passed.frame f.rsp = fr := frame_of_words h
  rw [List.cons_append, List.singleton_append, execAll, exec_mov, Option.bind_some, execAll, exec_call_passed, hrdi, hframe]
  cases isr_dispatch k fr <;> rfl

/-- On an aligned stack it leaves the stack and the memory of others alone. -/
theorem returned_keeps {f : Cpu} (k : Kernel σ) (halign : f.rsp % 16 = 0) (hroom : bottom + 8 ≤ f.rsp) :
    (C.returned k f).rsp = f.rsp ∧ ∀ x, Kept own bottom f x → (C.returned k f).mem x = f.mem x := by
  have hrsp : (f.passed.push f.rip).rsp = f.rsp - 8 := rfl
  obtain ⟨hback, -, hmem⟩ := C.keeps k (f.passed.push f.rip) (by omega)
  have hrsp' : (C.returned k f).rsp = (C.run k (f.passed.push f.rip)).rsp + 8 := rfl
  refine ⟨by omega, fun x ⟨hx, hout⟩ => (hmem x hx (by omega)).trans ?_⟩
  exact store_out (show x < f.rsp - 8 ∨ f.rsp - 8 + 8 ≤ x by omega)

variable (hcode : ∀ v < 256, isr_stub_table v < 2 ^ 64 ∧ code (isr_stub_table v) = some (isr_stub v))
include hcode

/-- An interrupt is its `isr_dispatch`, with the interrupted machine as the frame. The machine itself goes on
unchanged but for memory that is not its own. -/
theorem interrupt_eq (hv : v < 256) (hconv : error.isSome ↔ v ∈ ISR_ERR) (hrsp : s.cpu.rsp < 2 ^ 64)
    (hroom : bottom + 200 ≤ s.cpu.rsp) (hown : ∀ x, bottom ≤ x → x < s.cpu.rsp → ¬ own x) :
    ∃ m, (∀ x, Kept own bottom s.cpu x → m x = s.cpu.mem x) ∧
      interrupt C (idt_init isr_stub_table) code s v error =
        (isr_dispatch s.kernel (s.cpu.context v error)).map fun k => ⟨{ s.cpu with mem := m }, k⟩ := by
  obtain ⟨hgate, hoff⟩ := gate_leads hv (hcode v hv).1
  have hwords := framed_words s.cpu (idt_init isr_stub_table v) v error (by omega)
  have hat := framed_rsp s.cpu (idt_init isr_stub_table v) v error
  have hmem := framed_mem s.cpu (idt_init isr_stub_table v) v error
  unfold interrupt
  rw [if_pos hgate, hoff, (hcode v hv).2]
  dsimp only
  rw [exec_enter C hconv]
  generalize s.cpu.framed (idt_init isr_stub_table v) v error = f at hwords hat hmem ⊢
  obtain ⟨hrsp', hkeeps⟩ := returned_keeps C s.kernel (f := f) (by omega) (by omega)
  have hwords' : Stacked (C.returned s.kernel f).mem (C.returned s.kernel f).rsp (s.cpu.context v error).words := by
    rw [hrsp']
    refine hwords.congr fun x h1 h2 => hkeeps x ⟨?_, .inr h1⟩
    rw [interrupt_frame_t.words_length] at h2
    exact hown x (by omega) (by omega)
  have hback : (UInt64.ofNat s.cpu.rsp).toNat = s.cpu.rsp := by
    rw [UInt64.toNat_ofNat']
    exact Nat.mod_eq_of_lt hrsp
  refine ⟨(C.returned s.kernel f).mem, fun x hx => ?_, ?_⟩
  · have hx' := hx.2
    refine (hkeeps x ⟨hx.1, by omega⟩).trans ?_
    have hlen : (s.cpu.context v error).words.reverse.length = 22 := rfl
    rw [hmem]
    exact pushAll_out (by omega) (by omega)
  · rw [exec_call C hwords (by omega)]
    cases isr_dispatch s.kernel (s.cpu.context v error) with
    | none => rfl
    | some k =>
      rw [Option.bind_some, exec_leave C (s := ⟨C.returned s.kernel f, k⟩) hwords', Option.map_some]
      refine congrArg (fun n => some (⟨⟨s.cpu.regs, n, s.cpu.rip, s.cpu.cs, s.cpu.rflags, s.cpu.ss, _⟩, k⟩ : Machine σ)) ?_
      exact hback

end

end H3OS.Interrupts
