import H3OS.Types
import H3OS.Lib.Exclusive
/-!
# Spinlocks, mutexes and semaphores

`kernel/sync/sync.c`, run by any number of threads. Every test-and-set, load
and store is a step of its own; `Pc` says before which of them a thread is.
-/

namespace H3OS.Sync

/-- The `spinlock_t` objects: those on their own and the ones inside a mutex or a semaphore. -/
inductive Lock where
  | spin (a : Nat)
  | mtx (a : Nat)
  | sem (a : Nat)
deriving DecidableEq

inductive Call where
  | spin_lock (l : Lock)
  | mutex_lock (m : Nat)
  | mutex_unlock (m : Nat)
  | semaphore_wait (sem : Nat)
  | semaphore_post (sem : Nat)
deriving DecidableEq

/-- The spinlock that a call takes first. -/
def Call.lock : Call → Lock
  | spin_lock l => l
  | mutex_lock m => .mtx m
  | mutex_unlock m => .mtx m
  | semaphore_wait sem => .sem sem
  | semaphore_post sem => .sem sem

inductive Pc where
  /-- In the caller's code. -/
  | idle
  /-- At the test-and-set of `spin_lock`. -/
  | tas (c : Call)
  /-- At the load of its inner loop. -/
  | spin (c : Call)
  -- between spin_lock and spin_unlock of mutex_lock and mutex_unlock
  | lock_test (m : Nat)
  | lock_set (m : Nat)
  | unlock_clear (m : Nat)
  -- the same for semaphores; `count--` and `count++` load and store
  | wait_test (sem : Nat)
  | wait_load (sem : Nat)
  | wait_store (sem : Nat) (v : Int)
  | post_load (sem : Nat)
  | post_store (sem : Nat) (v : Int)
  -- at the `spin_unlock` of a round that failed, and at the one before a call returns
  | lock_retry (m : Nat)
  | wait_retry (sem : Nat)
  | release (c : Call)
deriving DecidableEq

structure Sys (T : Type*) where
  locked : Lock → Nat
  state : Nat → Int
  count : Nat → Int
  pc : T → Pc
  -- which locks and mutexes the callers hold
  holds : T → Lock → Bool
  owns : T → Nat → Bool
  -- for each semaphore: posts begun and applied, waits applied and completed
  begun : Nat → Nat
  posted : Nat → Nat
  taken : Nat → Nat
  completed : Nat → Nat

variable {T : Type*} [DecidableEq T]

/-- What a thread does next: begin a call, one of the two calls that are a single step, or go on with its call. -/
inductive Move where
  | call (c : Call)
  | spin_trylock (l : Lock)
  | spin_unlock (l : Lock)
  | go

/-- One entry of a table of the threads changed. -/
def put {κ : Type} [DecidableEq κ] (g : T → κ → Bool) (t : T) (k : κ) (b : Bool) : T → κ → Bool :=
  Function.update g t (Function.update (g t) k b)

namespace Sys

def at_ (s : Sys T) (t : T) (p : Pc) : Sys T := { s with pc := Function.update s.pc t p }

def set_locked (s : Sys T) (l : Lock) (v : Nat) : Sys T := { s with locked := Function.update s.locked l v }

def set_holds (s : Sys T) (t : T) (l : Lock) (b : Bool) : Sys T := { s with holds := put s.holds t l b }

def set_owns (s : Sys T) (t : T) (m : Nat) (b : Bool) : Sys T := { s with owns := put s.owns t m b }

/-- What a call's beginning means for its caller. -/
def begin_ (s : Sys T) (t : T) : Call → Sys T
  | .mutex_unlock m => s.set_owns t m false
  | .semaphore_post sem => { s with begun := Function.update s.begun sem (s.begun sem + 1) }
  | _ => s

/-- Behind `spin_lock`, which may be the call itself. -/
def enter (s : Sys T) (t : T) : Call → Sys T
  | .spin_lock l => (s.set_holds t l true).at_ t .idle
  | .mutex_lock m => s.at_ t (.lock_test m)
  | .mutex_unlock m => s.at_ t (.unlock_clear m)
  | .semaphore_wait sem => s.at_ t (.wait_test sem)
  | .semaphore_post sem => s.at_ t (.post_load sem)

/-- What a call's return means for its caller, when the call ends with `spin_unlock`. -/
def return_ (s : Sys T) (t : T) : Call → Sys T
  | .mutex_lock m => s.set_owns t m true
  | .semaphore_wait sem => { s with completed := Function.update s.completed sem (s.completed sem + 1) }
  | _ => s

/-- One step of a thread that is inside a call. -/
def go (s : Sys T) (t : T) : Sys T :=
  match s.pc t with
  | .idle => s
  | .tas c =>
    if s.locked c.lock ≠ 0 then (s.set_locked c.lock 1).at_ t (.spin c) else (s.set_locked c.lock 1).enter t c
  | .spin c => if s.locked c.lock ≠ 0 then s else s.at_ t (.tas c)
  | .lock_test m =>
    if s.state m = 0 then s.at_ t (.lock_set m) else s.at_ t (.lock_retry m)
  | .lock_set m => { s with state := Function.update s.state m 1 }.at_ t (.release (.mutex_lock m))
  | .unlock_clear m => { s with state := Function.update s.state m 0 }.at_ t (.release (.mutex_unlock m))
  | .wait_test sem =>
    if s.count sem > 0 then s.at_ t (.wait_load sem) else s.at_ t (.wait_retry sem)
  | .wait_load sem => s.at_ t (.wait_store sem (s.count sem - 1))
  | .wait_store sem v =>
    { s with
      count := Function.update s.count sem v
      taken := Function.update s.taken sem (s.taken sem + 1) }.at_ t (.release (.semaphore_wait sem))
  | .post_load sem => s.at_ t (.post_store sem (s.count sem + 1))
  | .post_store sem v =>
    { s with
      count := Function.update s.count sem v
      posted := Function.update s.posted sem (s.posted sem + 1) }.at_ t (.release (.semaphore_post sem))
  | .lock_retry m => (s.set_locked (.mtx m) 0).at_ t (.tas (.mutex_lock m))
  | .wait_retry sem => (s.set_locked (.sem sem) 0).at_ t (.tas (.semaphore_wait sem))
  | .release c => ((s.set_locked c.lock 0).at_ t .idle).return_ t c

end Sys

/-- Callers unlock what they hold only. -/
def Allowed (s : Sys T) (t : T) : Move → Prop
  | .call (.mutex_unlock m) => s.pc t = .idle ∧ s.owns t m = true
  | .call _ => s.pc t = .idle
  | .spin_trylock _ => s.pc t = .idle
  | .spin_unlock l => s.pc t = .idle ∧ s.holds t l = true
  | .go => True

instance (s : Sys T) (t : T) : (mv : Move) → Decidable (Allowed s t mv)
  | .call (.mutex_unlock _) => inferInstanceAs (Decidable (_ ∧ _))
  | .call (.spin_lock _) => inferInstanceAs (Decidable (_ = _))
  | .call (.mutex_lock _) => inferInstanceAs (Decidable (_ = _))
  | .call (.semaphore_wait _) => inferInstanceAs (Decidable (_ = _))
  | .call (.semaphore_post _) => inferInstanceAs (Decidable (_ = _))
  | .spin_trylock _ => inferInstanceAs (Decidable (_ = _))
  | .spin_unlock _ => inferInstanceAs (Decidable (_ ∧ _))
  | .go => inferInstanceAs (Decidable True)

/-- A move that is not allowed is not made. -/
def exec (s : Sys T) (e : T × Move) : Sys T :=
  let t := e.1
  if Allowed s t e.2 then
    match e.2 with
    | .call c => (s.begin_ t c).at_ t (.tas c)
    | .spin_trylock l => if s.locked l = 0 then (s.set_locked l 1).set_holds t l true else s.set_locked l 1
    | .spin_unlock l => (s.set_locked l 0).set_holds t l false
    | .go => s.go t
  else s

/-- After the objects' initialisation: nobody holds anything. -/
def start (v : Nat → Int) : Sys T :=
  ⟨fun _ => 0, fun _ => 0, v, fun _ => .idle, fun _ _ => false, fun _ _ => false,
    fun _ => 0, fun _ => 0, fun _ => 0, fun _ => 0⟩

end H3OS.Sync
