import H3OS.Sched.Model
/-!
# Theorems about the scheduler

`sched_init` makes the idle task current without taking it off the ready
queue. Every later state is one of two shapes: `Doubled`, where the idle task
still runs and still ends the queue, or `Looped`, where it has been appended
behind itself. Neither is a sound queue, and from the second shape
`sched_yield` never returns.
-/
open SysLib

namespace H3OS.Sched
open task_state_t

/-- The slot of the idle task. -/
def idle : TaskPtr := ⟨0, by decide⟩

/-! ## Reading an updated table -/

section
variable (s : St) (t u : TaskPtr) (v : task_state_t)

@[simp] theorem set_tasks (v : task_t) : (s.set t v).tasks = Function.update s.tasks t v := rfl
@[simp] theorem set_current (v : task_t) : (s.set t v).current = s.current := rfl
@[simp] theorem set_ready_q (v : task_t) : (s.set t v).ready_q = s.ready_q := rfl
@[simp] theorem set_next_id (v : task_t) : (s.set t v).next_id = s.next_id := rfl

@[simp] theorem next_set (v : task_t) : (s.set t v).next = Function.update s.next t v.next := by
  funext u
  by_cases h : u = t
  · subst h; simp [St.next]
  · simp [St.next, h]

@[simp] theorem next_setState : (s.setState t v).next = s.next := by
  simp only [St.setState, next_set]
  exact Function.update_eq_self t s.next

@[simp] theorem next_setNext (v : Option TaskPtr) : (s.setNext t v).next = Function.update s.next t v := by
  simp [St.setNext]

@[simp] theorem next_setReadyQ (v : Option TaskPtr) : (s.setReadyQ v).next = s.next := rfl

theorem state_setState : (s.setState t v).state u = if u = t then v else s.state u := by
  by_cases h : u = t
  · subst h; simp [St.state, St.setState]
  · simp [St.state, St.setState, h]

end

/-! ## The walk to the tail -/

/-- The link at which a walk from `tail` along `q` ends. -/
def lastLink (tail : Link) : List TaskPtr → Link
  | [] => tail
  | t :: q => lastLink (.next t) q

theorem lastLink_concat (tail : Link) (q : List TaskPtr) (t : TaskPtr) : lastLink tail (q ++ [t]) = .next t := by
  induction q generalizing tail with
  | nil => rfl
  | cons u q ih => exact ih (.next u)

/-- Along a finite queue the walk ends at its last link, given fuel for its length. -/
theorem walk_tail_chain {s : St} {tail : Link} {q : List TaskPtr} (h : Chain s.next (tail.deref s) q) (fuel : Nat) :
    walk_tail s fuel tail = if q.length < fuel then some (lastLink tail q) else none := by
  induction q generalizing tail fuel with
  | nil =>
    cases fuel with
    | zero => rfl
    | succ fuel => simp [walk_tail, chain_nil.1 h, lastLink]
  | cons t q ih =>
    cases fuel with
    | zero => rfl
    | succ fuel =>
      obtain ⟨ht, hq⟩ := chain_cons.1 h
      have hrest := @ih (.next t) hq fuel
      simp only [walk_tail, ht, hrest, List.length_cons, Nat.succ_lt_succ_iff, lastLink]

/-- Into a self-loop the walk never ends. -/
theorem walk_tail_loop {s : St} {tail : Link} {q : List TaskPtr} {t : TaskPtr} (h : Seg s.next (tail.deref s) q (some t))
    (ht : s.next t = some t) (fuel : Nat) : walk_tail s fuel tail = none := by
  induction fuel generalizing tail q with
  | zero => rfl
  | succ fuel ih =>
    cases q with
    | nil =>
      rw [seg_nil] at h
      simp only [walk_tail, h]
      exact @ih (.next t) [] ht
    | cons u q =>
      obtain ⟨hu, hq⟩ := seg_cons.1 h
      simp only [walk_tail, hu]
      exact @ih (.next u) q hq

/-! ## The two shapes -/

/-- A slot that `sched_create` leaves alone. -/
def Used (s : St) (t : TaskPtr) : Prop := (s.tasks t).id ≠ 0 ∧ s.state t ≠ TASK_DEAD

/-- The idle task runs and is also the last in the queue. -/
def Doubled (s : St) : Prop :=
  s.current = some idle ∧ ∃ q, Chain s.next s.ready_q (q ++ [idle]) ∧ ∀ t ∈ q ++ [idle], Used s t

/-- The queue runs into the idle task, which is its own successor. -/
def Looped (s : St) : Prop :=
  s.next idle = some idle ∧ ∃ c q, s.current = some c ∧ Used s c ∧ c ≠ idle ∧ c ∉ q ∧
    Seg s.next s.ready_q q (some idle) ∧ ∀ t ∈ idle :: q, Used s t

theorem Doubled.not_sound {s : St} (h : Doubled s) : ¬ QueueSound s := by
  rintro ⟨c, q, hc, hq, hnd, -⟩
  obtain ⟨hi, q', hq', -⟩ := h
  rw [hi, Option.some.injEq] at hc
  subst hc
  rw [Chain.unique hq hq'] at hnd
  exact (List.nodup_cons.1 hnd).1 (by simp)

theorem Looped.not_sound {s : St} (h : Looped s) : ¬ QueueSound s := by
  rintro ⟨c, q, -, hq, -⟩
  obtain ⟨hi, c', q', -, -, -, -, hs, -⟩ := h
  exact hs.no_chain hi hq

theorem requeue_eq {s : St} {c : TaskPtr} (hc : s.current = some c) (hst : s.state c ≠ TASK_DEAD) (fuel : Nat) :
    requeue fuel s = append_current fuel s c := by
  simp only [requeue, hc, if_pos hst]

/-- With a current task and a queue, a yield is: mark it ready, pop the queue, append it, run the popped task. -/
theorem sched_yield_eq {s : St} {c nxt : TaskPtr} (hc : s.current = some c) (hr : s.ready_q = some nxt) (fuel : Nat) :
    sched_yield fuel s =
      (append_current fuel ((s.setState c TASK_READY).setReadyQ (s.next nxt)) c).map (dispatch nxt) := by
  have hu : unrun s = s.setState c TASK_READY := by simp only [unrun, hc]
  have hrq : (s.setState c TASK_READY).ready_q = some nxt := hr
  have hcur : ((s.setState c TASK_READY).setReadyQ (s.next nxt)).current = some c := hc
  have hst : ((s.setState c TASK_READY).setReadyQ (s.next nxt)).state c = TASK_READY :=
    (state_setState s c c TASK_READY).trans (if_pos rfl)
  simp only [sched_yield, hu, hrq, next_setState]
  rw [requeue_eq hcur (by rw [hst]; decide)]

/-- A looped queue keeps `sched_yield` walking for ever. -/
theorem Looped.hangs {s : St} (h : Looped s) : Hangs s := by
  intro fuel
  obtain ⟨hi, c, q, hc, -, hne, hcq, hs, -⟩ := h
  obtain ⟨nxt, hr⟩ : ∃ t, s.ready_q = some t := by
    cases q with
    | nil => exact ⟨_, hs⟩
    | cons t q => exact ⟨t, hs.1⟩
  -- dropping the first task leaves a queue that still runs into the idle task
  obtain ⟨q', hq', hsub⟩ : ∃ q', Seg s.next (s.next nxt) q' (some idle) ∧ q' ⊆ q := by
    cases q with
    | nil =>
      rw [seg_nil, hr, Option.some.injEq] at hs
      exact ⟨[], by simp [hs, hi], by simp⟩
    | cons t q =>
      rw [seg_cons, hr, Option.some.injEq] at hs
      exact ⟨q, hs.1 ▸ hs.2, by simp⟩
  rw [sched_yield_eq hc hr, append_current, walk_tail_loop (q := q') (t := idle)]
  · rfl
  · rw [next_setNext, next_setReadyQ, next_setState]
    exact hq'.update (fun h => hcq (hsub h))
  · rw [next_setNext, next_setReadyQ, next_setState, Function.update_of_ne hne.symm]
    exact hi

/-! ## Steps keep the shapes -/

/-- A change that touches no identity and kills no task. -/
structure Keeps (s s' : St) : Prop where
  next_id : s'.next_id = s.next_id
  ids : ∀ t, (s'.tasks t).id = (s.tasks t).id
  alive : ∀ t, s.state t ≠ TASK_DEAD → s'.state t ≠ TASK_DEAD

theorem Keeps.refl (s : St) : Keeps s s := ⟨rfl, fun _ => rfl, fun _ h => h⟩

theorem Keeps.trans {s₁ s₂ s₃ : St} (h : Keeps s₁ s₂) (h' : Keeps s₂ s₃) : Keeps s₁ s₃ :=
  ⟨h'.next_id.trans h.next_id, fun t => (h'.ids t).trans (h.ids t), fun t ht => h'.alive t (h.alive t ht)⟩

theorem Keeps.used {s s' : St} (h : Keeps s s') {t : TaskPtr} (ht : Used s t) : Used s' t :=
  ⟨by rw [h.ids]; exact ht.1, h.alive t ht.2⟩

theorem keeps_set (s : St) (t : TaskPtr) (v : task_t) (hid : v.id = (s.tasks t).id)
    (hst : s.state t ≠ TASK_DEAD → v.state ≠ TASK_DEAD) : Keeps s (s.set t v) := by
  refine ⟨rfl, fun u => ?_, fun u hu => ?_⟩
  · by_cases h : u = t
    · subst h; simpa using hid
    · simp [h]
  · by_cases h : u = t
    · subst h; simpa [St.state] using hst hu
    · simpa [St.state, h] using hu

theorem keeps_setState (s : St) (t : TaskPtr) {v : task_state_t} (hv : v ≠ TASK_DEAD) : Keeps s (s.setState t v) :=
  keeps_set s t _ rfl (fun _ => hv)

theorem keeps_setNext (s : St) (t : TaskPtr) (v : Option TaskPtr) : Keeps s (s.setNext t v) :=
  keeps_set s t _ rfl id

theorem keeps_setReadyQ (s : St) (v : Option TaskPtr) : Keeps s (s.setReadyQ v) :=
  ⟨rfl, fun _ => rfl, fun _ h => h⟩

theorem keeps_assign (s : St) (v : Option TaskPtr) (l : Link) : Keeps s (l.assign s v) := by
  cases l with
  | ready_q => exact keeps_setReadyQ s v
  | next t => exact keeps_setNext s t v

theorem keeps_dispatch (s : St) (t : TaskPtr) : Keeps s (dispatch t s) := by
  have h₁ : Keeps s { s with current := some t } := ⟨rfl, fun _ => rfl, fun _ h => h⟩
  exact (h₁.trans (keeps_setState _ t (by decide))).trans (keeps_setNext _ t none)

theorem keeps_yield {s s' : St} {fuel : Nat} (h : sched_yield fuel s = some s') : Keeps s s' := by
  have hu : Keeps s (unrun s) := by
    unfold unrun
    split
    · exact keeps_setState s _ (by decide)
    · exact .refl s
  unfold sched_yield at h
  cases hr : (unrun s).ready_q with
  | none =>
    simp only [hr, Option.some.injEq] at h
    exact h ▸ hu
  | some nxt =>
    simp only [hr] at h
    obtain ⟨s₁, hs₁, rfl⟩ := Option.map_eq_some_iff.1 h
    refine ((hu.trans (keeps_setReadyQ _ ((unrun s).next nxt))).trans ?_).trans (keeps_dispatch s₁ nxt)
    unfold requeue at hs₁
    split at hs₁
    · split at hs₁
      · obtain ⟨l, -, rfl⟩ := Option.map_eq_some_iff.1 hs₁
        exact (keeps_setNext _ _ none).trans (keeps_assign _ _ l)
      · cases hs₁; exact .refl _
    · cases hs₁; exact .refl _

theorem keeps_tick (s : St) : Keeps s (sched_tick s) := by
  unfold sched_tick
  split
  · exact keeps_set s _ _ rfl id
  · exact .refl s

@[simp] theorem next_dispatch (s : St) (t : TaskPtr) : (dispatch t s).next = Function.update s.next t none := by
  simp only [dispatch, next_setNext, next_setState]
  rfl

/-- A yield with only the idle task queued gives back the same shape; with another task it closes the loop. -/
theorem yield_doubled {s s' : St} {fuel : Nat} (h : Doubled s) (hy : sched_yield fuel s = some s') :
    Doubled s' ∨ Looped s' := by
  obtain ⟨hc, q, hq, hu⟩ := h
  have hk := keeps_yield hy
  have hnd := hq.nodup
  have hlast : s.next idle = none := (seg_concat.1 hq).2
  cases q with
  | nil =>
    obtain ⟨hr, hn⟩ := chain_cons.1 hq
    rw [sched_yield_eq hc hr, append_current, walk_tail_chain (q := []) (by exact hlast)] at hy
    obtain ⟨s₁, hs₁, rfl⟩ := Option.map_eq_some_iff.1 hy
    obtain ⟨l, hl, rfl⟩ := Option.map_eq_some_iff.1 hs₁
    split at hl
    · cases hl
      refine .inl ⟨rfl, [], ?_, fun t ht => hk.used (hu t ht)⟩
      simp only [List.nil_append, chain_cons, chain_nil]
      exact ⟨rfl, by simp⟩
    · cases hl
  | cons t q =>
    obtain ⟨hr, hn⟩ := chain_cons.1 hq
    obtain ⟨hseg, -⟩ := seg_concat.1 hn
    rw [List.cons_append, List.nodup_cons, List.mem_append, not_or, List.mem_singleton] at hnd
    have hiq : idle ∉ q := fun hm => (List.nodup_append.1 hnd.2).2.2 idle hm idle (by simp) rfl
    rw [sched_yield_eq hc hr, append_current, walk_tail_chain (q := q ++ [idle]), lastLink_concat] at hy
    · obtain ⟨s₁, hs₁, rfl⟩ := Option.map_eq_some_iff.1 hy
      obtain ⟨l, hl, rfl⟩ := Option.map_eq_some_iff.1 hs₁
      split at hl
      · cases hl
        refine .inr ⟨?_, t, q, rfl, hk.used (hu t (by simp)), hnd.1.2, hnd.1.1, ?_, fun u hm => hk.used (hu u ?_)⟩
        · simp [Link.assign, Function.update_of_ne (Ne.symm hnd.1.2)]
        · simp only [next_dispatch, Link.assign, next_setNext, next_setReadyQ, next_setState]
          exact ((hseg.update hiq).update hiq).update hnd.1.1
        · rcases List.mem_cons.1 hm with rfl | hm <;> simp_all
      · cases hl
    · simp only [next_setNext, next_setReadyQ, next_setState]
      exact seg_concat.2 ⟨hseg.update hiq, by simp⟩

/-! ## Creating a task -/

def created (s : St) : Finset TaskPtr := Finset.univ.filter (fun t => (s.tasks t).id ≠ 0)

@[simp] theorem mem_created {s : St} {t : TaskPtr} : t ∈ created s ↔ (s.tasks t).id ≠ 0 := by simp [created]

theorem card_created_le (s : St) : (created s).card ≤ 64 := by
  simpa [MAX_TASKS] using Finset.card_le_univ (created s)

/-- As many tasks were created as ids were given out, and none has died. -/
def Counted (s : St) : Prop := s.next_id = (created s).card + 1 ∧ ∀ t, s.state t ≠ TASK_DEAD

theorem counted_keeps {s s' : St} (h : Counted s) (hk : Keeps s s') : Counted s' := by
  have hc : created s' = created s := by ext t; simp [hk.ids t]
  exact ⟨by rw [hk.next_id, h.1, hc], fun t => hk.alive t (h.2 t)⟩

/-- What `sched_create` does when it finds a slot: the slot was unused, gets the next id and heads the queue. -/
theorem create_cases {s : St} (hn : Counted s) (name : Option (List UInt8)) (entry arg : Nat) :
    (sched_create s name entry arg).2 = s ∨
    ∃ t v, (s.tasks t).id = 0 ∧ v.id = s.next_id ∧ v.state = TASK_READY ∧ v.next = s.ready_q ∧
      (sched_create s name entry arg).2 =
        { s.set t v with ready_q := some t, next_id := (s.next_id + 1) % 2 ^ 32, task_count := (s.task_count + 1) % 2 ^ 32 } := by
  unfold sched_create
  cases hf : free_slot s with
  | none => exact .inl rfl
  | some t =>
    have hfree : s.state t = TASK_DEAD ∨ (s.tasks t).id = 0 := by simpa [free_slot, St.state] using List.find?_some hf
    exact .inr ⟨t, _, hfree.resolve_left (hn.2 t), rfl, rfl, rfl, rfl⟩

theorem create_used {s s' : St} {t : TaskPtr} {v : task_t} (hn : Counted s) (hv : v.id = s.next_id) (hvs : v.state = TASK_READY)
    (hs : s'.tasks = Function.update s.tasks t v) {u : TaskPtr} (h : u = t ∨ Used s u) : Used s' u := by
  by_cases hut : u = t
  · subst hut
    simp only [Used, St.state, hs, Function.update_self, hv, hvs]
    exact ⟨by rw [hn.1]; omega, by decide⟩
  · simpa [Used, St.state, hs, hut] using h.resolve_left hut

theorem create_counted {s : St} (hn : Counted s) (name : Option (List UInt8)) (entry arg : Nat) :
    Counted (sched_create s name entry arg).2 := by
  rcases create_cases hn name entry arg with h | ⟨t, v, ht, hv, hvs, -, h⟩
  · rw [h]; exact hn
  · have hset : created (sched_create s name entry arg).2 = insert t (created s) := by
      ext u
      rw [Finset.mem_insert, mem_created, mem_created, h]
      by_cases hu : u = t
      · subst hu
        have hpos : s.next_id ≠ 0 := by rw [hn.1]; omega
        simp [hv, hpos]
      · simp [hu]
    have hcard := card_created_le s
    refine ⟨?_, fun u => ?_⟩
    · rw [hset, Finset.card_insert_of_notMem (by simp [ht]), h]
      simp only [hn.1]
      exact Nat.mod_eq_of_lt (by omega)
    · rw [h]
      by_cases hu : u = t
      · subst hu; simp [St.state, hvs]
      · simpa [St.state, hu] using hn.2 u

theorem create_doubled {s : St} (hn : Counted s) (h : Doubled s) (name : Option (List UInt8)) (entry arg : Nat) :
    Doubled (sched_create s name entry arg).2 := by
  rcases create_cases hn name entry arg with he | ⟨t, v, ht, hv, hvs, hvn, he⟩
  · rw [he]; exact h
  · obtain ⟨hc, q, hq, hu⟩ := h
    have hnew : t ∉ q ++ [idle] := fun hm => (hu t hm).1 ht
    rw [he]
    refine ⟨hc, t :: q, ⟨rfl, ?_⟩, fun u hm => create_used (s := s) hn hv hvs rfl ?_⟩
    · change Seg (s.set t v).next ((s.set t v).next t) (q ++ [idle]) none
      rw [next_set, Function.update_self, hvn]
      exact Seg.update hq hnew
    · rcases List.mem_cons.1 hm with rfl | hm
      · exact .inl rfl
      · exact .inr (hu u hm)

theorem create_looped {s : St} (hn : Counted s) (h : Looped s) (name : Option (List UInt8)) (entry arg : Nat) :
    Looped (sched_create s name entry arg).2 := by
  rcases create_cases hn name entry arg with he | ⟨t, v, ht, hv, hvs, hvn, he⟩
  · rw [he]; exact h
  · obtain ⟨hi, c, q, hc, huc, hne, hcq, hq, hu⟩ := h
    have hnew : t ∉ idle :: q := fun hm => (hu t hm).1 ht
    have htc : c ≠ t := by rintro rfl; exact huc.1 ht
    rw [List.mem_cons, not_or] at hnew
    have hnext : ∀ u, St.next (sched_create s name entry arg).2 u = Function.update s.next t v.next u := by
      intro u
      rw [he]
      exact congrFun (next_set s t v) u
    refine ⟨?_, c, t :: q, ?_, ?_, hne, by simp [htc, hcq], ?_, fun u hm => ?_⟩
    · rw [hnext, Function.update_of_ne (Ne.symm hnew.1)]; exact hi
    · rw [he]; exact hc
    · rw [he]; exact create_used (s := s) hn hv hvs rfl (.inr huc)
    · rw [seg_cons]
      refine ⟨by rw [he], ?_⟩
      rw [hnext, Function.update_self, hvn, show St.next (sched_create s name entry arg).2 = _ from funext hnext]
      exact hq.update hnew.2
    · rw [he]
      refine create_used (s := s) hn hv hvs rfl ?_
      simp only [List.mem_cons] at hm
      rcases hm with rfl | rfl | hm
      · exact .inr (hu _ (by simp))
      · exact .inl rfl
      · exact .inr (hu u (by simp [hm]))

/-! ## Every run -/

theorem tick_shape {s : St} (h : Doubled s ∨ Looped s) : Doubled (sched_tick s) ∨ Looped (sched_tick s) := by
  have hk := keeps_tick s
  have hn : (sched_tick s).next = s.next := by
    unfold sched_tick
    split
    · rw [next_set]; exact Function.update_eq_self _ _
    · rfl
  have hc : (sched_tick s).current = s.current ∧ (sched_tick s).ready_q = s.ready_q := by
    unfold sched_tick
    split <;> exact ⟨rfl, rfl⟩
  rcases h with ⟨h1, q, h2, h3⟩ | ⟨h1, c, q, h2, h3, h4, h5, h6, h7⟩
  · exact .inl ⟨by rw [hc.1, h1], q, by rw [hn, hc.2]; exact h2, fun t ht => hk.used (h3 t ht)⟩
  · exact .inr ⟨by rw [hn, h1], c, q, by rw [hc.1, h2], hk.used h3, h4, h5, by rw [hn, hc.2]; exact h6,
      fun t ht => hk.used (h7 t ht)⟩

theorem init_counted : Counted sched_init := by
  refine ⟨by decide, by decide⟩

theorem init_doubled : Doubled sched_init := by
  refine ⟨by decide, [], ?_, ?_⟩
  · simp only [List.nil_append, chain_cons, chain_nil]
    decide
  · simp only [List.nil_append, List.mem_singleton, forall_eq, Used]
    decide

/-- One call that returns keeps the shape. -/
theorem call_shape {s s' : St} {c : Call} {fuel : Nat} (hn : Counted s) (h : Doubled s ∨ Looped s)
    (hs : call fuel s c = some s') : Counted s' ∧ (Doubled s' ∨ Looped s') := by
  cases c with
  | create name entry arg =>
    cases hs
    exact ⟨create_counted hn name entry arg,
      h.imp (create_doubled hn · name entry arg) (create_looped hn · name entry arg)⟩
  | yield =>
    refine ⟨counted_keeps hn (keeps_yield hs), ?_⟩
    rcases h with h | h
    · exact yield_doubled h hs
    · exact absurd ((h.hangs fuel).symm.trans hs) (by simp)
  | tick =>
    cases hs
    exact ⟨counted_keeps hn (keeps_tick s), tick_shape h⟩

theorem runs_shape {cs : List Call} {s : St} (h : Runs cs s) : Counted s ∧ (Doubled s ∨ Looped s) := by
  induction h with
  | init => exact ⟨init_counted, .inl init_doubled⟩
  | call fuel _ hs ih => exact call_shape ih.1 ih.2 hs

/-- No run reaches a sound queue, and once the idle task is off the processor the next yield never returns. -/
theorem queue_never_sound (cs : List Call) (s : St) (h : Runs cs s) :
    ¬ QueueSound s ∧ (s.current ≠ some idle → Hangs s) := by
  obtain ⟨-, hd | hl⟩ := runs_shape h
  · exact ⟨hd.not_sound, fun hc => absurd hd.1 hc⟩
  · exact ⟨hl.not_sound, fun _ => hl.hangs⟩

/-- The state after one task is created and the idle task yields to it. -/
def afterOneYield : St := ((sched_yield 2 (sched_create sched_init (some (str "worker")) 0 0).2).getD sched_init)

theorem afterOneYield_runs : Runs [.create (some (str "worker")) 0 0, .yield] afterOneYield :=
  .call 2 (.call (s := sched_init) (c := .create (some (str "worker")) 0 0) 0 .init rfl) rfl

theorem queue_never_sound_one_yield :
    Runs [.create (some (str "worker")) 0 0, .yield] afterOneYield ∧ ¬ QueueSound afterOneYield ∧
      (afterOneYield.current ≠ some idle → Hangs afterOneYield) :=
  ⟨afterOneYield_runs, queue_never_sound _ _ afterOneYield_runs⟩

/-- Create one task and yield to it: the idle task is queued behind itself, and the second yield walks for ever. -/
theorem second_yield_hangs :
    Runs [.create (some (str "worker")) 0 0, .yield] afterOneYield ∧ ¬ QueueSound afterOneYield ∧
      Hangs afterOneYield := by
  obtain ⟨-, hd | hl⟩ := runs_shape afterOneYield_runs
  · exact absurd hd.1 (by decide)
  · exact ⟨afterOneYield_runs, hl.not_sound, hl.hangs⟩

end H3OS.Sched
