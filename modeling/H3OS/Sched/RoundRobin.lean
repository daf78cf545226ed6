import H3OS.Sched.Theorems
/-!
# Round robin

What `sched_yield` does from a queue that is sound. `sched_init` never leaves
one (`queue_never_sound`), so these results are about the algorithm and not
about a run of this kernel: the running task followed by its queue is one
list, and a yield rotates it by one.
-/
open SysLib

namespace H3OS.Sched
open task_state_t

/-- `c` runs, and `q` is the ready queue: a finite list of other tasks, all ready. -/
structure Turns (s : St) (c : TaskPtr) (q : List TaskPtr) : Prop where
  current : s.current = some c
  queue : Chain s.next s.ready_q q
  nodup : (c :: q).Nodup
  running : s.state c = TASK_RUNNING
  ready : ∀ t ∈ q, s.state t = TASK_READY

/-- No other slot of the table is marked running. -/
def RunsAlone (s : St) (c : TaskPtr) : Prop := ∀ t, s.state t = TASK_RUNNING ↔ t = c

/-! ## One yield -/

section
variable (s : St) (t : TaskPtr) (l : Link) (v : Option TaskPtr)

@[simp] theorem state_setNext : (s.setNext t v).state = s.state := by
  funext u
  by_cases h : u = t
  · subst h; simp [St.state, St.setNext]
  · simp [St.state, St.setNext, h]

@[simp] theorem state_setReadyQ : (s.setReadyQ v).state = s.state := rfl

@[simp] theorem state_assign : (l.assign s v).state = s.state := by
  cases l with
  | ready_q => rfl
  | next t => exact state_setNext s t v

theorem state_dispatch (u : TaskPtr) : (dispatch t s).state u = if u = t then TASK_RUNNING else s.state u := by
  simp only [dispatch, state_setNext, state_setState]
  rfl

end

/-- Clearing the link of `c` and writing it into the last link puts it behind the queue. -/
theorem append_chain {s : St} {c : TaskPtr} {q : List TaskPtr} (h : Chain s.next s.ready_q q) (hc : c ∉ q) :
    Chain ((lastLink .ready_q q).assign (s.setNext c none) (some c)).next
      ((lastLink .ready_q q).assign (s.setNext c none) (some c)).ready_q (q ++ [c]) := by
  rcases List.eq_nil_or_concat q with rfl | ⟨q, t, rfl⟩
  · simp only [lastLink, Link.assign, List.nil_append, chain_cons, next_setReadyQ, next_setNext, Function.update_self]
    exact ⟨rfl, rfl⟩
  · rw [List.concat_eq_append] at h hc ⊢
    have hnd := h.nodup
    have htq : t ∉ q := fun hm => (List.nodup_append.1 hnd).2.2 t hm t (by simp) rfl
    rw [List.mem_append, not_or, List.mem_singleton] at hc
    obtain ⟨hseg, -⟩ := seg_concat.1 h
    rw [lastLink_concat]
    simp only [Link.assign, next_setNext]
    refine seg_concat.2 ⟨seg_concat.2 ⟨?_, by simp⟩, ?_⟩
    · exact (hseg.update hc.1).update htq
    · simp [Function.update_of_ne hc.2]

/-- What one yield does: the head of the queue runs, and the task that ran is last and ready. -/
theorem yield_turn {s : St} {c nxt : TaskPtr} {q : List TaskPtr} (h : Turns s c (nxt :: q)) :
    ∃ s', (∀ fuel > q.length, sched_yield fuel s = some s') ∧ Turns s' nxt (q ++ [c]) ∧
      ∀ t, t ∉ c :: nxt :: q → s'.state t = s.state t := by
  obtain ⟨hr, hq⟩ := chain_cons.1 h.queue
  have hnd := h.nodup
  simp only [List.nodup_cons, List.mem_cons, not_or] at hnd
  obtain ⟨⟨hcn, hcq⟩, hnq, -⟩ := hnd
  -- the state in which `current` is appended: the head is popped, the task that ran is ready
  set s₁ := (s.setState c TASK_READY).setReadyQ (s.next nxt) with hs₁
  have hq₁ : Chain s₁.next s₁.ready_q q := by
    rw [hs₁, next_setReadyQ, next_setState]
    exact hq
  set s₂ := (lastLink .ready_q q).assign (s₁.setNext c none) (some c) with hs₂
  have hstate : ∀ t, (dispatch nxt s₂).state t =
      if t = nxt then TASK_RUNNING else if t = c then TASK_READY else s.state t := by
    intro t
    simp only [state_dispatch, hs₂, state_assign, state_setNext, hs₁, state_setReadyQ, state_setState]
  refine ⟨dispatch nxt s₂, fun fuel hf => ?_, ⟨rfl, ?_, ?_, ?_, ?_⟩, ?_⟩
  · rw [sched_yield_eq h.current hr, append_current, walk_tail_chain (q := q), if_pos hf]
    · rfl
    · rw [next_setNext]
      exact Seg.update hq₁ hcq
  · rw [next_dispatch]
    refine Seg.update (append_chain hq₁ hcq) ?_
    simp [hnq, Ne.symm hcn]
  · simp only [List.nodup_cons, List.mem_append, List.mem_singleton, not_or]
    refine ⟨⟨hnq, Ne.symm hcn⟩, List.nodup_append.2 ⟨hq₁.nodup, by simp, ?_⟩⟩
    intro t ht u hu e
    rw [List.mem_singleton] at hu
    exact hcq (hu ▸ e ▸ ht)
  · simp [hstate]
  · intro t ht
    rw [hstate, if_neg]
    · rcases List.mem_append.1 ht with hm | ht
      · rw [if_neg (by rintro rfl; exact hcq hm)]
        exact h.ready t (by simp [hm])
      · rw [if_pos (List.mem_singleton.1 ht)]
    · rintro rfl
      simp [hnq, Ne.symm hcn] at ht
  · intro t ht
    simp only [List.mem_cons, not_or] at ht
    rw [hstate, if_neg ht.2.1, if_neg ht.1]

/-! ## Any number of yields -/

/-- The tasks in turn: the running one, then the queue. -/
def TurnsIn (s : St) (l : List TaskPtr) : Prop := ∃ c q, l = c :: q ∧ Turns s c q

theorem TurnsIn.current {s : St} {l : List TaskPtr} (h : TurnsIn s l) : s.current = l.head? := by
  obtain ⟨c, q, rfl, ht⟩ := h
  exact ht.current

/-- Make the calls in order, noting who is current after each yield. -/
def schedule (fuel : Nat) : List Call → St → Option (List (Option TaskPtr) × St)
  | [], s => some ([], s)
  | .yield :: cs, s =>
    (sched_yield fuel s).bind fun s' => (schedule fuel cs s').map fun r => (s'.current :: r.1, r.2)
  | c :: cs, s => (call fuel s c).bind (schedule fuel cs)

def Call.isYield : Call → Bool
  | .yield => true
  | _ => false

def Call.isCreate : Call → Bool
  | .create .. => true
  | _ => false

theorem TurnsIn.tick {s : St} {l : List TaskPtr} (h : TurnsIn s l) : TurnsIn (sched_tick s) l := by
  obtain ⟨c, q, rfl, ht⟩ := h
  have he : sched_tick s = s.set c { s.tasks c with ticks := ((s.tasks c).ticks + 1) % 2 ^ 64 } := by
    simp only [sched_tick, ht.current]
  have hn : (sched_tick s).next = s.next := by
    rw [he, next_set]
    exact Function.update_eq_self c s.next
  have hst : (sched_tick s).state = s.state := by
    funext t
    rw [he]
    by_cases h : t = c
    · subst h; simp [St.state]
    · simp [St.state, h]
  refine ⟨c, q, rfl, ?_, ?_, ht.nodup, ?_, ?_⟩
  · rw [he]; exact ht.current
  · rw [hn, he]; exact ht.queue
  · rw [hst]; exact ht.running
  · rw [hst]; exact ht.ready

/-- A yield rotates the turns by one. -/
theorem TurnsIn.yield {s : St} {l : List TaskPtr} (h : TurnsIn s l) (hl : 2 ≤ l.length) :
    ∃ s', (∀ fuel, l.length ≤ fuel + 1 → sched_yield fuel s = some s') ∧ TurnsIn s' (l.rotate 1) := by
  obtain ⟨c, q, rfl, ht⟩ := h
  cases q with
  | nil => simp at hl
  | cons nxt q =>
    obtain ⟨s', hy, ht', -⟩ := yield_turn ht
    refine ⟨s', fun fuel hf => hy fuel ?_, nxt, q ++ [c], by simp, ht'⟩
    simp only [List.length_cons] at hf
    omega

/-- Without a `sched_create`, after `k` yields the turns are rotated by `k`. -/
theorem TurnsIn.schedule {l : List TaskPtr} (hl : 2 ≤ l.length) {cs : List Call} (hcs : ∀ c ∈ cs, c.isCreate = false)
    {s : St} (h : TurnsIn s l) :
    ∃ s', (∀ fuel, l.length ≤ fuel + 1 → Sched.schedule fuel cs s =
        some ((List.range (cs.countP Call.isYield)).map (fun i => (l.rotate (i + 1)).head?), s')) ∧
      TurnsIn s' (l.rotate (cs.countP Call.isYield)) := by
  induction cs generalizing s l with
  | nil => exact ⟨s, fun fuel _ => rfl, by simpa using h⟩
  | cons c cs ih =>
    have hcs' : ∀ c ∈ cs, c.isCreate = false := fun x hx => hcs x (by simp [hx])
    cases c with
    | create name entry arg => simpa [Call.isCreate] using hcs (.create name entry arg) (by simp)
    | tick =>
      obtain ⟨s', hs', ht'⟩ := ih hl hcs' h.tick
      exact ⟨s', fun fuel hf => by simpa [Sched.schedule, call, Call.isYield] using hs' fuel hf,
        by simpa [Call.isYield] using ht'⟩
    | yield =>
      obtain ⟨s₁, hy, ht₁⟩ := h.yield hl
      obtain ⟨s', hs', ht'⟩ := ih (l := l.rotate 1) (by simpa using hl) hcs' ht₁
      refine ⟨s', fun fuel hf => ?_, ?_⟩
      · have hrest := hs' fuel (by simpa using hf)
        simp only [List.rotate_rotate] at hrest
        simp only [Sched.schedule, hy fuel hf, Option.bind_some, hrest, Option.map_some, ht₁.current,
          List.countP_cons, Call.isYield, if_true, List.range_succ_eq_map, List.map_cons, List.map_map]
        simp only [Function.comp_def, Nat.succ_eq_add_one, Nat.zero_add, Nat.add_comm 1]
      · rw [List.rotate_rotate, Nat.add_comm] at ht'
        simpa [List.countP_cons, Call.isYield] using ht'

/-- Who is current in one full round: the queue in order, then the task that ran first. -/
theorem round_currents (c : TaskPtr) (q : List TaskPtr) :
    (List.range (c :: q).length).map (fun i => ((c :: q).rotate (i + 1)).head?) = (q ++ [c]).map some := by
  have hrot : ∀ i, (c :: q).rotate (i + 1) = (q ++ [c]).rotate i := fun i => by simp
  apply List.ext_getElem
  · simp
  · intro i h₁ h₂
    have hi : i < (q ++ [c]).length := by simpa using h₂
    rw [List.getElem_map, List.getElem_range, List.getElem_map, hrot, List.head?_rotate hi, List.getElem?_eq_getElem hi]

/-- From a sound queue a yield passes the processor to its head and puts the task that ran behind it; so a full
round of yields makes every task current once and ends where it began. -/
theorem yield_round_robin {s : St} {c nxt : TaskPtr} {q : List TaskPtr} (h : Turns s c (nxt :: q)) :
    (∃ s', (∀ fuel > q.length, sched_yield fuel s = some s') ∧ Turns s' nxt (q ++ [c]) ∧
      (∃! t, t ∈ c :: nxt :: q ∧ s'.state t = TASK_RUNNING) ∧ (RunsAlone s c → RunsAlone s' nxt)) ∧
    ∀ cs : List Call, (∀ x ∈ cs, x.isCreate = false) → cs.countP Call.isYield = (c :: nxt :: q).length →
      ∃ s', (∀ fuel > q.length, schedule fuel cs s = some ((nxt :: q ++ [c]).map some, s')) ∧
        Turns s' c (nxt :: q) := by
  constructor
  · obtain ⟨s', hy, ht, hother⟩ := yield_turn h
    have hone : ∀ t ∈ c :: nxt :: q, s'.state t = TASK_RUNNING → t = nxt := by
      intro t hm hrun
      by_contra hne
      have hmem : t ∈ q ++ [c] := by
        simp only [List.mem_cons] at hm
        simp only [List.mem_append, List.mem_singleton]
        tauto
      rw [ht.ready t hmem] at hrun
      cases hrun
    refine ⟨s', hy, ht, ⟨nxt, ⟨by simp, ht.running⟩, fun t ht' => hone t ht'.1 ht'.2⟩, fun ha t => ⟨fun hrun => ?_, ?_⟩⟩
    · by_cases hm : t ∈ c :: nxt :: q
      · exact hone t hm hrun
      · rw [hother t hm, ha t] at hrun
        exact absurd (by simp [hrun]) hm
    · rintro rfl
      exact ht.running
  · intro cs hcs hn
    obtain ⟨s', hs', c', q', he, ht⟩ :=
      TurnsIn.schedule (l := c :: nxt :: q) (by simp) hcs ⟨c, nxt :: q, rfl, h⟩
    rw [hn, List.rotate_length, List.cons.injEq] at he
    refine ⟨s', fun fuel hf => ?_, he.1 ▸ he.2 ▸ ht⟩
    rw [hs' fuel (by simp only [List.length_cons]; omega), hn, round_currents]

/-- Three tasks: the idle task runs, the other two wait. -/
def threeTasks : St where
  tasks t := { task_t.zero with
    id := t + 1
    state := if t.val = 0 then TASK_RUNNING else TASK_READY
    next := if t.val = 1 then some ⟨2, by decide⟩ else none }
  current := some idle
  ready_q := some ⟨1, by decide⟩
  next_id := 4
  task_count := 3

theorem yield_round_robin_three : Turns threeTasks idle [⟨1, by decide⟩, ⟨2, by decide⟩] ∧
    ∃ s', (∀ fuel > 1, schedule fuel [.yield, .tick, .yield, .yield] threeTasks =
        some ([some ⟨1, by decide⟩, some ⟨2, by decide⟩, some idle], s')) ∧
      Turns s' idle [⟨1, by decide⟩, ⟨2, by decide⟩] := by
  have h : Turns threeTasks idle [⟨1, by decide⟩, ⟨2, by decide⟩] := by
    refine ⟨rfl, ?_, by decide, rfl, by decide⟩
    simp only [chain_cons, chain_nil]
    decide
  exact ⟨h, (yield_round_robin h).2 [.yield, .tick, .yield, .yield] (by simp [Call.isCreate]) rfl⟩

end H3OS.Sched
