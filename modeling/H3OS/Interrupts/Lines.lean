import H3OS.Interrupts.Runs
/-!
# Which lines get through

`pic_init` leaves lines 0 and 1 open, and `irq_install` opens its own line. A
line of the second controller gets through only when line 2 is open as well,
which no handler's installation does for it. The open lines that ask are served in the order of
their priority, each once, and none stays in service.
-/
open SysLib

namespace H3OS.Interrupts

/-- The lines in the order of their priority; the second controller's come where line 2 would. -/
def PRIORITY : List Nat := [0, 1] ++ ([8, 9, 10, 11, 12, 13, 14, 15] ++ [3, 4, 5, 6, 7])

/-- The line is open, with handlers installed on `installed`. -/
def isOpen (installed : List Nat) (irq : Nat) : Bool :=
  (irq < 2 || installed.contains irq) && (irq < 8 || installed.contains 2)

/-- A device asks on the line. -/
def Pics.asks (p : Pics) (irq : Nat) : Bool := if irq < 8 then p.master.irr.getLsbD irq else p.slave.irr.getLsbD (irq - 8)

/-- The line asks and is open. -/
def waiting (p : Pics) (installed : List Nat) (irq : Nat) : Bool := p.asks irq && isOpen installed irq

section
variable {σ : Type}

/-- The processor takes an interrupt in the state `c`. -/
def take (c : Cpu) (k : Kernel σ) : Option (Nat × Kernel σ) :=
  match k.pic.deliver with
  | none => none
  | some (v, p) => (isr_dispatch { k with pic := p } (c.context v none)).map fun k => (v, k)

/-- At most `n` interrupts, one after the other, with the vectors taken. -/
def drain (c : Cpu) : Nat → Kernel σ → List Nat × Kernel σ
  | 0, k => ([], k)
  | n + 1, k =>
    match take c k with
    | none => ([], k)
    | some (v, k) => let (vs, k) := drain c n k; (v :: vs, k)

/-- The kernel from `idt_init` on: handlers are installed, devices ask, and the processor takes interrupts. -/
inductive LineRuns : Kernel σ → List Nat → Prop
  | boot (p : Pics) (data : σ) : LineRuns ⟨fun _ => none, data, pic_init p⟩ []
  | install {k installed} (irq : Nat) (handler : interrupt_frame_t → σ → σ) : LineRuns k installed → irq < 16 →
      LineRuns (irq_install k irq handler) (irq :: installed)
  | ask {k installed} (irq : Nat) : LineRuns k installed → irq < 16 → irq ≠ 2 →
      LineRuns { k with pic := k.pic.ask irq } installed
  | take {k k' installed} {v : Nat} (c : Cpu) : LineRuns k installed → take c k = some (v, k') → LineRuns k' installed

end

/-! ## Bits and chips -/

section
variable {x : BitVec 8} {i j : Nat} {c : Chip} {p : Nat → Bool}

theorem getLsbD_bit (hj : j < 8) : (bit i).getLsbD j = decide (j = i) := by
  unfold bit
  rw [show 1#8 <<< i = BitVec.twoPow 8 i from rfl, BitVec.getLsbD_twoPow]
  by_cases h : i = j
  · simp [h, hj]
  · simp [h, Ne.symm h]

theorem getLsbD_clear (hj : j < 8) : (x &&& ~~~ bit i).getLsbD j = (x.getLsbD j && !decide (j = i)) := by
  rw [BitVec.getLsbD_and, BitVec.getLsbD_not, getLsbD_bit hj]
  simp [hj]

theorem getLsbD_set (hj : j < 8) : (x ||| bit i).getLsbD j = (x.getLsbD j || decide (j = i)) := by
  rw [BitVec.getLsbD_or, getLsbD_bit hj]

/-- A chip that is set up, with nothing in service. -/
structure Chip.Idle (c : Chip) : Prop where
  icw : c.icw = 0
  isr : c.isr = 0

theorem Chip.Idle.pick (h : c.Idle) : c.pick = lowest fun i => c.irr.getLsbD i && !c.imr.getLsbD i := by
  unfold Chip.pick
  rw [if_neg (not_not.2 h.icw), h.isr]
  congr 1
  funext i
  simp

/-- A line goes into service and is done. -/
theorem Chip.Idle.serve_done (h : c.Idle) (hi : i < 8) :
    (c.serve i).command 0x20 = { c with irr := c.irr &&& ~~~ bit i } := by
  have hdone : ∀ i < 8, lowest (0#8 ||| bit i).getLsbD = some i ∧ (0#8 ||| bit i) &&& ~~~ bit i = 0#8 := by decide
  obtain ⟨h1, h2⟩ := hdone i hi
  have hisr : c.isr = 0#8 := h.isr
  unfold Chip.serve Chip.command
  dsimp only
  rw [if_neg (by decide), if_pos rfl, hisr, h1]
  dsimp only
  rw [h2, ← hisr]

theorem Chip.Idle.mask (h : c.Idle) (v : BitVec 8) : c.data v = { c with imr := v } := by
  unfold Chip.data
  rw [h.icw]
  rfl

theorem lowest_split : lowest p = ([0, 1].find? p).or (((if p 2 then some 2 else none)).or ([3, 4, 5, 6, 7].find? p)) := by
  unfold lowest
  rw [show List.range 8 = [0, 1] ++ ([2] ++ [3, 4, 5, 6, 7]) from rfl, List.find?_append, List.find?_append]
  congr 2
  cases h : p 2 <;> simp [h]

theorem lowest_lt (h : lowest p = some i) : i < 8 := List.mem_range.1 (List.mem_of_find?_eq_some h)

end

/-! ## The two controllers -/

structure Settled (p : Pics) (installed : List Nat) : Prop where
  master : p.master.Idle
  slave : p.slave.Idle
  master_base : p.master.base = 0x20
  slave_base : p.slave.base = 0x28
  master_open : ∀ i < 8, p.master.imr.getLsbD i = !(decide (i < 2) || installed.contains i)
  slave_open : ∀ j < 8, p.slave.imr.getLsbD j = !installed.contains (8 + j)

/-- Line `irq` has been served. -/
def Pics.served (p : Pics) (irq : Nat) : Pics :=
  if irq < 8 then { p with master := { p.master with irr := p.master.irr &&& ~~~ bit irq } }
  else ⟨{ p.master with irr := p.master.irr &&& ~~~ bit 2 }, { p.slave with irr := p.slave.irr &&& ~~~ bit (irq - 8) }⟩

section
variable {p : Pics} {installed : List Nat} {irq : Nat}

theorem settled_init (p : Pics) : Settled (pic_init p) [] := by
  have heq : pic_init p = ⟨⟨0xFC, 0, 0, 0x20, 0, true⟩, ⟨0xFF, 0, 0, 0x28, 0, true⟩⟩ := rfl
  rw [heq]
  exact ⟨⟨rfl, rfl⟩, ⟨rfl, rfl⟩, rfl, rfl, by decide, by decide⟩

theorem Settled.ask (h : Settled p installed) (irq : Nat) : Settled (p.ask irq) installed := by
  unfold Pics.ask
  split_ifs
  · exact ⟨⟨h.master.icw, h.master.isr⟩, h.slave, h.master_base, h.slave_base, h.master_open, h.slave_open⟩
  · exact ⟨h.master, ⟨h.slave.icw, h.slave.isr⟩, h.master_base, h.slave_base, h.master_open, h.slave_open⟩

theorem Settled.install {σ : Type} {k : Kernel σ} (h : Settled k.pic installed) (hirq : irq < 16)
    (handler : interrupt_frame_t → σ → σ) :
    Settled (irq_install k irq handler).pic (irq :: installed) ∧
      ∀ j, (irq_install k irq handler).pic.asks j = k.pic.asks j := by
  unfold irq_install
  rw [if_pos hirq]
  dsimp only
  split_ifs with h8
  · have hout : outb k.pic 0x21 (inb k.pic 0x21 &&& ~~~ bit irq) =
        { k.pic with master := { k.pic.master with imr := k.pic.master.imr &&& ~~~ bit irq } } :=
      congrArg (fun c => ({ k.pic with master := c } : Pics)) (h.master.mask _)
    rw [hout]
    refine ⟨⟨⟨h.master.icw, h.master.isr⟩, h.slave, h.master_base, h.slave_base, fun i hi => ?_, fun j hj => ?_⟩, fun _ => rfl⟩
    · rw [getLsbD_clear hi, h.master_open i hi, List.contains_cons]
      by_cases hne : i = irq
      · simp [hne]
      · rw [beq_false_of_ne hne]
        simp [hne]
    · rw [h.slave_open j hj, List.contains_cons, beq_false_of_ne (show 8 + j ≠ irq by omega), Bool.false_or]
  · have hout : outb k.pic 0xA1 (inb k.pic 0xA1 &&& ~~~ bit (irq - 8)) =
        { k.pic with slave := { k.pic.slave with imr := k.pic.slave.imr &&& ~~~ bit (irq - 8) } } :=
      congrArg (fun c => ({ k.pic with slave := c } : Pics)) (h.slave.mask _)
    rw [hout]
    refine ⟨⟨h.master, ⟨h.slave.icw, h.slave.isr⟩, h.master_base, h.slave_base, fun i hi => ?_, fun j hj => ?_⟩, fun _ => rfl⟩
    · rw [h.master_open i hi, List.contains_cons, beq_false_of_ne (show i ≠ irq by omega), Bool.false_or]
    · rw [getLsbD_clear hj, h.slave_open j hj, List.contains_cons]
      by_cases hne : 8 + j = irq
      · simp [← hne]
      · rw [beq_false_of_ne hne]
        simp [show j ≠ irq - 8 by omega]

theorem asks_served (hirq : irq < 16) {j : Nat} (hj : j < 16) (h2 : j ≠ 2) :
    (p.served irq).asks j = (p.asks j && !decide (j = irq)) := by
  unfold Pics.served Pics.asks
  by_cases h8 : irq < 8 <;> by_cases hj8 : j < 8
  · rw [if_pos h8, if_pos hj8, if_pos hj8, getLsbD_clear hj8]
  · have hne : j ≠ irq := by omega
    rw [if_pos h8, if_neg hj8, if_neg hj8]
    simp [hne]
  · have hne : j ≠ irq := by omega
    rw [if_neg h8, if_pos hj8, if_pos hj8, getLsbD_clear hj8]
    simp [hne, h2]
  · have heq : (j - 8 = irq - 8) ↔ j = irq := by omega
    rw [if_neg h8, if_neg hj8, if_neg hj8, getLsbD_clear (by omega)]
    simp [heq]

theorem Settled.served (h : Settled p installed) (irq : Nat) : Settled (p.served irq) installed := by
  unfold Pics.served
  split_ifs
  · exact ⟨⟨h.master.icw, h.master.isr⟩, h.slave, h.master_base, h.slave_base, h.master_open, h.slave_open⟩
  · exact ⟨⟨h.master.icw, h.master.isr⟩, ⟨h.slave.icw, h.slave.isr⟩, h.master_base, h.slave_base, h.master_open, h.slave_open⟩

/-! ## What is delivered -/

/-- Line `irq` in service, on both controllers if it is the second's. -/
def Pics.serving (p : Pics) (irq : Nat) : Pics :=
  if irq < 8 then { p with master := p.master.serve irq } else ⟨p.master.serve 2, p.slave.serve (irq - 8)⟩

/-- The acknowledgement of a handler ends the service. -/
theorem Settled.ack (h : Settled p installed) (hirq : irq < 16) : irq_ack (p.serving irq) irq = p.served irq := by
  unfold irq_ack Pics.serving Pics.served
  by_cases h8 : irq < 8
  · rw [if_neg (by omega), if_pos h8, if_pos h8]
    exact congrArg (fun c => ({ p with master := c } : Pics)) (h.master.serve_done h8)
  · rw [if_pos (by omega), if_neg h8, if_neg h8]
    exact congrArg₂ Pics.mk (h.master.serve_done (by omega)) (h.slave.serve_done (by omega))

theorem Settled.slave_pick (h : Settled p installed) :
    p.slave.pick = lowest fun j => p.slave.irr.getLsbD j && installed.contains (8 + j) := by
  rw [h.slave.pick]
  unfold lowest
  refine List.find?_congr fun j hj => ?_
  rw [h.slave_open j (List.mem_range.1 hj), Bool.not_not]

/-- The second controller's part of the order. -/
theorem Settled.find_slave (h : Settled p installed) : [8, 9, 10, 11, 12, 13, 14, 15].find? (waiting p installed) =
    if installed.contains 2 then p.slave.pick.map (8 + ·) else none := by
  rw [show [8, 9, 10, 11, 12, 13, 14, 15] = (List.range 8).map (8 + ·) from rfl, List.find?_map]
  have hline : ∀ j, waiting p installed (8 + j) =
      (p.slave.irr.getLsbD j && installed.contains (8 + j) && installed.contains 2) := by
    intro j
    unfold waiting Pics.asks isOpen
    rw [if_neg (by omega), Nat.add_sub_cancel_left, Bool.and_assoc, decide_eq_false (show ¬ 8 + j < 2 by omega),
      decide_eq_false (show ¬ 8 + j < 8 by omega), Bool.false_or, Bool.false_or]
  split_ifs with h2
  · rw [h.slave_pick]
    congr 1
    refine List.find?_congr fun j _ => ?_
    rw [Function.comp_apply, hline, h2, Bool.and_true]
  · have hnone : (List.range 8).find? (waiting p installed ∘ (8 + ·)) = none := by
      refine List.find?_eq_none.2 fun j _ => ?_
      rw [Function.comp_apply, hline, Bool.eq_false_of_not_eq_true h2, Bool.and_false]
      exact Bool.false_ne_true
    rw [hnone]
    rfl

/-- And the first's. -/
theorem Settled.cascade_pick (h : Settled p installed) : p.cascade.pick =
    ([0, 1].find? (waiting p installed)).or
      ((if p.slave.pick.isSome && installed.contains 2 then some 2 else none).or
        ([3, 4, 5, 6, 7].find? (waiting p installed))) := by
  have hidle : p.cascade.Idle := ⟨h.master.icw, h.master.isr⟩
  have hirr : ∀ i < 8, p.cascade.irr.getLsbD i = if i = 2 then p.slave.pick.isSome else p.master.irr.getLsbD i := by
    intro i hi
    unfold Pics.cascade
    dsimp only
    by_cases hs : p.slave.pick.isSome
    · rw [if_pos hs, getLsbD_set hi, hs]
      by_cases h2 : i = 2 <;> simp [h2]
    · rw [if_neg hs, getLsbD_clear hi]
      by_cases h2 : i = 2 <;> simp [h2, hs]
  have hline : ∀ i < 8, i ≠ 2 → (p.cascade.irr.getLsbD i && !p.cascade.imr.getLsbD i) = waiting p installed i := by
    intro i hi h2
    have himr : p.cascade.imr = p.master.imr := rfl
    rw [hirr i hi, if_neg h2, himr, h.master_open i hi, Bool.not_not]
    unfold waiting Pics.asks isOpen
    rw [if_pos hi]
    simp [hi]
  have htwo : (p.cascade.irr.getLsbD 2 && !p.cascade.imr.getLsbD 2) = (p.slave.pick.isSome && installed.contains 2) := by
    have himr : p.cascade.imr = p.master.imr := rfl
    rw [hirr 2 (by norm_num), if_pos rfl, himr, h.master_open 2 (by norm_num), Bool.not_not]
    simp
  rw [hidle.pick, lowest_split, htwo]
  congr 1
  · refine List.find?_congr fun i hi => hline i ?_ ?_ <;> simp at hi <;> omega
  · congr 1
    refine List.find?_congr fun i hi => hline i ?_ ?_ <;> simp at hi <;> omega

/-- The processor is interrupted for the first waiting line in the order of priority. -/
theorem Settled.deliver (h : Settled p installed) :
    p.deliver = (PRIORITY.find? (waiting p installed)).map fun i => (32 + i, p.serving i) := by
  have hbase : p.master.base.toNat = 32 := by
    rw [h.master_base]
    rfl
  have hbase' : p.slave.base.toNat = 40 := by
    rw [h.slave_base]
    rfl
  unfold Pics.deliver
  rw [h.cascade_pick, PRIORITY, List.find?_append, List.find?_append, h.find_slave]
  cases h1 : [0, 1].find? (waiting p installed) with
  | some i =>
    have hi : i = 0 ∨ i = 1 := by simpa using List.mem_of_find?_eq_some h1
    rcases hi with rfl | rfl <;> simp [hbase, Pics.serving]
  | none =>
    rw [Option.none_or, Option.none_or]
    cases h2 : installed.contains 2 with
    | true =>
      cases hs : p.slave.pick with
      | some j =>
        have hj : j < 8 := lowest_lt (h.slave_pick ▸ hs)
        simp [hbase', Pics.serving]
        omega
      | none =>
        cases h3 : [3, 4, 5, 6, 7].find? (waiting p installed) with
        | none => simp
        | some i =>
          have hi : i = 3 ∨ i = 4 ∨ i = 5 ∨ i = 6 ∨ i = 7 := by simpa using List.mem_of_find?_eq_some h3
          rcases hi with rfl | rfl | rfl | rfl | rfl <;> simp [hbase, Pics.serving]
    | false =>
      cases h3 : [3, 4, 5, 6, 7].find? (waiting p installed) with
      | none => simp
      | some i =>
        have hi : i = 3 ∨ i = 4 ∨ i = 5 ∨ i = 6 ∨ i = 7 := by simpa using List.mem_of_find?_eq_some h3
        rcases hi with rfl | rfl | rfl | rfl | rfl <;> simp [hbase, Pics.serving]

end

/-! ## Serving the lines -/

section
variable {σ : Type} {k k' : Kernel σ} {installed : List Nat} {c : Cpu} {i j : Nat}

/-- The handler of line `i` has run, and the line is acknowledged. -/
def Kernel.served (c : Cpu) (k : Kernel σ) (i : Nat) : Kernel σ :=
  { k with
    data := match k.irq_handlers i with
      | some handler => handler (c.context (32 + i) none) k.data
      | none => k.data
    pic := k.pic.served i }

theorem mem_priority : i ∈ PRIORITY ↔ i < 16 ∧ i ≠ 2 := by
  unfold PRIORITY
  simp
  omega

theorem priority_nodup : PRIORITY.Nodup := by decide

/-- The processor takes the first waiting line, whose handler runs and is acknowledged. -/
theorem Settled.take (h : Settled k.pic installed) :
    take c k = (PRIORITY.find? (waiting k.pic installed)).map fun i => (32 + i, k.served c i) := by
  unfold Interrupts.take
  rw [h.deliver]
  cases hf : PRIORITY.find? (waiting k.pic installed) with
  | none => rfl
  | some i =>
    have hi := (mem_priority.1 (List.mem_of_find?_eq_some hf)).1
    have hno : ∀ i < 16, ¬ UInt64.ofNat (32 + i) < 32 ∧ UInt64.ofNat (32 + i) < 48 ∧ (UInt64.ofNat (32 + i) - 32).toNat = i := by
      decide
    obtain ⟨h32, h48, hirq⟩ := hno i hi
    have hint : (c.context (32 + i) none).int_no = UInt64.ofNat (32 + i) := rfl
    rw [Option.map_some, Option.map_some]
    dsimp only
    unfold isr_dispatch
    rw [hint, if_neg h32, if_pos h48, hirq]
    dsimp only
    rw [h.ack hi]
    rfl

theorem waiting_served (hi : i ∈ PRIORITY) (hj : j ∈ PRIORITY) :
    waiting (k.pic.served i) installed j = (waiting k.pic installed j && !decide (j = i)) := by
  unfold waiting
  rw [asks_served (mem_priority.1 hi).1 (mem_priority.1 hj).1 (mem_priority.1 hj).2]
  rw [Bool.and_assoc, Bool.and_comm (!decide (j = i)), Bool.and_assoc]

/-- Serving the first waiting line leaves the others waiting. -/
theorem waiting_tail {t : List Nat} (h : PRIORITY.filter (waiting k.pic installed) = i :: t) :
    PRIORITY.filter (waiting (k.served c i).pic installed) = t := by
  have hi : i ∈ PRIORITY := (List.mem_filter.1 (h ▸ List.mem_cons_self : i ∈ PRIORITY.filter _)).1
  have hnodup : (i :: t).Nodup := h ▸ priority_nodup.filter _
  calc PRIORITY.filter (waiting (k.served c i).pic installed)
      = PRIORITY.filter fun j => waiting k.pic installed j && !decide (j = i) :=
        List.filter_congr fun j hj => waiting_served hi hj
    _ = (PRIORITY.filter (waiting k.pic installed)).filter fun j => !decide (j = i) := by
        rw [List.filter_filter]
        congr 1
        funext j
        exact Bool.and_comm _ _
    _ = t := by
        rw [h, List.filter_cons_of_neg (by simp), List.filter_eq_self]
        intro j hj
        have hne : j ≠ i := by
          rintro rfl
          exact (List.nodup_cons.1 hnodup).1 hj
        simpa using hne

theorem Settled.drain (h : Settled k.pic installed) (n : Nat) :
    drain c n k = (((PRIORITY.filter (waiting k.pic installed)).take n).map (32 + ·),
      ((PRIORITY.filter (waiting k.pic installed)).take n).foldl (Kernel.served c) k) := by
  induction n generalizing k with
  | zero => rfl
  | succ n ih =>
    unfold Interrupts.drain
    rw [h.take, ← List.head?_filter]
    cases hw : PRIORITY.filter (waiting k.pic installed) with
    | nil => rfl
    | cons i t =>
      have hrest := ih (k := k.served c i) (h.served i)
      rw [waiting_tail hw] at hrest
      simp only [List.head?_cons, Option.map_some, hrest]
      rfl

theorem asks_foldl {ws : List Nat} (hws : ∀ i ∈ ws, i < 16) (hj : j < 16) (h2 : j ≠ 2) :
    (ws.foldl (Kernel.served c) k).pic.asks j = (k.pic.asks j && !ws.contains j) := by
  induction ws generalizing k with
  | nil => simp
  | cons i ws ih =>
    have hstep : (k.served c i).pic.asks j = (k.pic.asks j && !decide (j = i)) :=
      asks_served (hws i List.mem_cons_self) hj h2
    rw [List.foldl_cons, ih fun i hi => hws i (List.mem_cons_of_mem _ hi), hstep, List.contains_cons, Bool.not_or,
      Bool.and_assoc]
    rfl

theorem Settled.foldl (h : Settled k.pic installed) (ws : List Nat) : Settled (ws.foldl (Kernel.served c) k).pic installed := by
  induction ws generalizing k with
  | nil => exact h
  | cons i ws ih => exact ih (k := k.served c i) (h.served i)

theorem LineRuns.settled (h : LineRuns k installed) : Settled k.pic installed := by
  induction h with
  | boot p data => exact settled_init p
  | install irq handler _ hirq ih => exact (ih.install hirq handler).1
  | ask irq _ _ _ ih => exact ih.ask irq
  | take c _ he ih =>
    rw [ih.take] at he
    obtain ⟨i, -, hi⟩ := Option.map_eq_some_iff.1 he
    cases hi
    exact ih.served i

/-- After any run the open lines that ask are served, each once and in the order of priority; none stays in service, and
nothing is left but the requests on closed lines. Until a handler is installed on line 2, no line of the second controller ever
interrupts. -/
theorem lines_served (h : LineRuns k installed) (c : Cpu) :
    drain c 16 k = ((PRIORITY.filter (waiting k.pic installed)).map (32 + ·),
        (PRIORITY.filter (waiting k.pic installed)).foldl (Kernel.served c) k) ∧
      take c (drain c 16 k).2 = none ∧
      ((drain c 16 k).2.pic.master.isr = 0 ∧ (drain c 16 k).2.pic.slave.isr = 0) ∧
      (∀ i ∈ PRIORITY, (drain c 16 k).2.pic.asks i = (k.pic.asks i && !isOpen installed i)) ∧
      (2 ∉ installed → ∀ v k', take c k = some (v, k') → v < 40) := by
  have hs := h.settled
  have hlen : (PRIORITY.filter (waiting k.pic installed)).length ≤ 16 :=
    (List.length_filter_le _ _).trans (by decide)
  have hall := hs.drain (c := c) 16
  rw [List.take_of_length_le hlen] at hall
  have hasks : ∀ i ∈ PRIORITY, (drain c 16 k).2.pic.asks i = (k.pic.asks i && !isOpen installed i) := by
    intro i hi
    obtain ⟨hi16, hi2⟩ := mem_priority.1 hi
    rw [hall]
    refine (asks_foldl (fun j hj => (mem_priority.1 (List.mem_filter.1 hj).1).1) hi16 hi2).trans ?_
    cases ha : k.pic.asks i with
    | false => rfl
    | true =>
      rw [Bool.true_and, Bool.true_and]
      congr 1
      rw [Bool.eq_iff_iff, List.contains_iff_mem, List.mem_filter]
      unfold waiting
      rw [ha, Bool.true_and]
      exact ⟨And.right, fun ho => ⟨hi, ho⟩⟩
  have hend : Settled (drain c 16 k).2.pic installed := by
    rw [hall]
    exact hs.foldl _
  refine ⟨hall, ?_, ⟨hend.master.isr, hend.slave.isr⟩, hasks, fun h2 v k' he => ?_⟩
  · rw [hend.take, Option.map_eq_none_iff, List.find?_eq_none]
    intro i hi
    unfold waiting
    rw [hasks i hi]
    cases isOpen installed i <;> simp
  · rw [hs.take] at he
    obtain ⟨i, hf, hi⟩ := Option.map_eq_some_iff.1 he
    cases hi
    have hw := List.find?_some hf
    unfold waiting isOpen at hw
    simp [h2] at hw
    omega

/-- The handlers of the kernel as it boots: timer, keyboard and mouse. A tick and a movement of the mouse come in. -/
theorem lines_served_mouse : ∃ k : Kernel Nat, LineRuns k [12, 1, 0] ∧ k.pic.asks 12 = true ∧
    (drain counting.cpu 16 k).1 = [32] ∧ (drain counting.cpu 16 k).2.pic.asks 12 = true := by
  let handler : interrupt_frame_t → Nat → Nat := fun _ n => n + 1
  have h := (((((LineRuns.boot counting.kernel.pic 0).install 0 handler (by norm_num)).install 1 handler (by norm_num)).install
    12 handler (by norm_num)).ask 0 (by norm_num) (by norm_num)).ask 12 (by norm_num) (by norm_num)
  obtain ⟨h1, -, -, h3, -⟩ := lines_served h counting.cpu
  refine ⟨_, h, by decide, ?_, ?_⟩
  · rw [h1]
    decide
  · rw [h3 12 (by decide)]
    decide

end

end H3OS.Interrupts
