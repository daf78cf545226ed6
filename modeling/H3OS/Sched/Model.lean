import H3OS.Types
import H3OS.Lib.Chain
/-!
# The cooperative scheduler

`kernel/core/sched.c`: a table of tasks, the running one and a ready queue
threaded through the tasks' own `next` pointers. Calls come one after another,
so `sched_lock` is free on entry and freed on exit and is left out.
-/
open SysLib

namespace H3OS.Sched

def MAX_TASKS : Nat := 64
def TASK_NAME : Nat := 32

inductive task_state_t where
  | TASK_READY
  | TASK_RUNNING
  | TASK_BLOCKED
  | TASK_DEAD
deriving DecidableEq, Repr

open task_state_t

/-- A pointer into `tasks`. -/
abbrev TaskPtr := Fin MAX_TASKS

structure task_t where
  id : Nat
  name : List UInt8
  state : task_state_t
  ticks : Nat
  entry : Nat
  arg : Nat
  next : Option TaskPtr

/-- A task after `memset(t, 0, sizeof(*t))`. -/
def task_t.zero : task_t := ⟨0, [], TASK_READY, 0, 0, 0, none⟩

structure St where
  tasks : TaskPtr → task_t
  current : Option TaskPtr
  ready_q : Option TaskPtr
  next_id : Nat
  task_count : Nat

namespace St

/-- Overwrite one slot of the table. -/
def set (s : St) (t : TaskPtr) (v : task_t) : St := { s with tasks := Function.update s.tasks t v }

def setState (s : St) (t : TaskPtr) (v : task_state_t) : St := s.set t { s.tasks t with state := v }

def setNext (s : St) (t : TaskPtr) (v : Option TaskPtr) : St := s.set t { s.tasks t with next := v }

def setReadyQ (s : St) (v : Option TaskPtr) : St := { s with ready_q := v }

/-- The link of each task. -/
def next (s : St) (t : TaskPtr) : Option TaskPtr := (s.tasks t).next

def state (s : St) (t : TaskPtr) : task_state_t := (s.tasks t).state

end St

/-! ## Creating tasks -/

/-- The slot the search loop of `sched_create` stops at. -/
def free_slot (s : St) : Option TaskPtr :=
  (List.finRange MAX_TASKS).find? (fun i => (s.tasks i).state = TASK_DEAD || (s.tasks i).id = 0)

def sched_create (s : St) (name : Option (List UInt8)) (entry arg : Nat) : Option TaskPtr × St :=
  match free_slot s with
  | none => (none, s)
  | some t =>
    (some t,
      { s.set t { id := s.next_id, name := (name.getD (str "task")).take (TASK_NAME - 1), state := TASK_READY,
                  ticks := 0, entry, arg, next := s.ready_q } with
        ready_q := some t
        next_id := (s.next_id + 1) % 2 ^ 32
        task_count := (s.task_count + 1) % 2 ^ 32 })

def sched_init : St :=
  match sched_create ⟨fun _ => task_t.zero, none, none, 1, 0⟩ (some (str "kernel-idle")) 0 0 with
  | (some idle, s) => { s.setState idle TASK_RUNNING with current := some idle }
  | (none, s) => s

/-! ## Yielding -/

/-- What `tail` points at: `ready_q` itself, or the `next` field of a task. -/
inductive Link where
  | ready_q
  | next (t : TaskPtr)
deriving DecidableEq, Repr

def Link.deref (s : St) : Link → Option TaskPtr
  | .ready_q => s.ready_q
  | .next t => s.next t

def Link.assign (s : St) (v : Option TaskPtr) : Link → St
  | .ready_q => s.setReadyQ v
  | .next t => s.setNext t v

/-- `while (*tail) tail = &(*tail)->next`, given up after `fuel` steps. -/
def walk_tail (s : St) : Nat → Link → Option Link
  | 0, _ => none
  | fuel + 1, tail =>
    match tail.deref s with
    | none => some tail
    | some t => walk_tail s fuel (.next t)

/-- `current->next = NULL`, the walk, and `*tail = current`. -/
def append_current (fuel : Nat) (s : St) (c : TaskPtr) : Option St :=
  (walk_tail (s.setNext c none) fuel .ready_q).map (Link.assign (s.setNext c none) (some c))

/-- Put the current task behind the queue, unless it is dead. -/
def requeue (fuel : Nat) (s : St) : Option St :=
  match s.current with
  | some c => if s.state c ≠ TASK_DEAD then append_current fuel s c else some s
  | none => some s

/-- Make `nxt` the running task. -/
def dispatch (nxt : TaskPtr) (s : St) : St := (St.setState { s with current := some nxt } nxt TASK_RUNNING).setNext nxt none

/-- `if (current) current->state = TASK_READY`. -/
def unrun (s : St) : St :=
  match s.current with
  | some c => s.setState c TASK_READY
  | none => s

/-- `none` when the walk to the tail has not ended within `fuel` steps. -/
def sched_yield (fuel : Nat) (s : St) : Option St :=
  match (unrun s).ready_q with
  | none => some (unrun s)
  | some nxt => (requeue fuel ((unrun s).setReadyQ ((unrun s).next nxt))).map (dispatch nxt)

def sched_tick (s : St) : St :=
  match s.current with
  | some c => s.set c { s.tasks c with ticks := ((s.tasks c).ticks + 1) % 2 ^ 64 }
  | none => s

/-! ## Runs -/

inductive Call where
  | create (name : Option (List UInt8)) (entry arg : Nat)
  | yield
  | tick

def call (fuel : Nat) (s : St) : Call → Option St
  | .create name entry arg => some (sched_create s name entry arg).2
  | .yield => sched_yield fuel s
  | .tick => some (sched_tick s)

/-- The state after `sched_init` and some calls, each of which returned. -/
inductive Runs : List Call → St → Prop
  | init : Runs [] sched_init
  | call {cs s s' c} (fuel : Nat) : Runs cs s → call fuel s c = some s' → Runs (cs ++ [c]) s'

/-- The running task and the ready queue list every created task exactly once, in the right states. -/
def QueueSound (s : St) : Prop :=
  ∃ c q, s.current = some c ∧ Chain s.next s.ready_q q ∧ (c :: q).Nodup ∧
    (∀ t, t ∈ c :: q ↔ (s.tasks t).id ≠ 0) ∧ s.state c = TASK_RUNNING ∧ ∀ t ∈ q, s.state t = TASK_READY

/-- No amount of walking brings `sched_yield` to its end. -/
def Hangs (s : St) : Prop := ∀ fuel, sched_yield fuel s = none

end H3OS.Sched
