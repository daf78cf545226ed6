import H3OS.Sync.Model
/-!
# Locks exclude and semaphores conserve

`Inv` relates the words to where the threads are: a lock word to who is in its
critical section, a mutex word to who owns the mutex, a count to the posts and
waits applied to it. A thread has a lock or a mutex as a caller that holds it,
or by way of the call it is in; the latter is a function of its `Pc`.
-/
open SysLib

namespace H3OS.Sync

variable {T : Type*} [DecidableEq T] {s : Sys T} {t : T} {p : Pc} {v : Nat → Int}

/-- The spinlock in whose critical section a call is. -/
def Pc.inside : Pc → Option Lock
  | lock_test m | lock_set m | unlock_clear m | lock_retry m => some (.mtx m)
  | wait_test sem | wait_load sem | wait_store sem _ | wait_retry sem => some (.sem sem)
  | post_load sem | post_store sem _ => some (.sem sem)
  | release c => some c.lock
  | _ => none

/-- The mutex that a call has taken and not given back, before it returns or after it was called. -/
def Pc.owning : Pc → Option Nat
  | release (.mutex_lock m) => some m
  | tas (.mutex_unlock m) | spin (.mutex_unlock m) | unlock_clear m => some m
  | _ => none

/-- The semaphore that a post has begun on and not yet applied to. -/
def Pc.posting : Pc → Option Nat
  | tas (.semaphore_post sem) | spin (.semaphore_post sem) | post_load sem | post_store sem _ => some sem
  | _ => none

/-- The semaphore that a wait has taken from and not yet returned. -/
def Pc.taking : Pc → Option Nat
  | release (.semaphore_wait sem) => some sem
  | _ => none

/-! ## Who has what -/

section Holder

variable {κ : Type} [DecidableEq κ] {g : T → κ → Bool} {f : Pc → Option κ} {pc : T → Pc} {k k' : κ}

/-- The callers that have `k` by the table `g`, and the calls that have it by their `Pc`. -/
def Holder (g : T → κ → Bool) (f : Pc → Option κ) (pc : T → Pc) (k : κ) : T ⊕ T → Prop
  | .inl t => g t k = true
  | .inr t => f (pc t) = some k

omit [DecidableEq T] [DecidableEq κ] in
theorem holder_call {pc' : T → Pc} {u : T} (h : pc' u = pc u) :
    Holder g f pc' k (.inr u) ↔ Holder g f pc k (.inr u) := by
  rw [Holder, Holder, h]

omit [DecidableEq κ] in
theorem holder_keep (hp : f p = some k → f (pc t) = some k) :
    ∀ j, Holder g f (Function.update pc t p) k j → Holder g f pc k j := by
  rintro (u | u) hu
  · exact hu
  · by_cases hut : u = t
    · subst hut
      rw [Holder, Function.update_self] at hu
      exact hp hu
    · exact (holder_call (Function.update_of_ne hut p pc)).1 hu

omit [DecidableEq κ] in
theorem holder_enter : ∀ j, Holder g f (Function.update pc t p) k j → Holder g f pc k j ∨ j = .inr t := by
  rintro (u | u) hu
  · exact .inl hu
  · by_cases hut : u = t
    · exact .inr (congrArg Sum.inr hut)
    · exact .inl ((holder_call (Function.update_of_ne hut p pc)).1 hu)

omit [DecidableEq κ] in
theorem holder_leave (hp : f p ≠ some k) :
    ∀ j, Holder g f (Function.update pc t p) k j → Holder g f pc k j ∧ j ≠ .inr t := by
  rintro (u | u) hu
  · exact ⟨hu, nofun⟩
  · by_cases hut : u = t
    · subst hut
      rw [Holder, Function.update_self] at hu
      exact absurd hu hp
    · refine ⟨(holder_call (Function.update_of_ne hut p pc)).1 hu, fun heq => hut ?_⟩
      exact Sum.inr.inj heq

theorem put_self (b : Bool) : put g t k b t k = b := by
  rw [put, Function.update_self, Function.update_self]

theorem put_other {u : T} (b : Bool) (h : u ≠ t ∨ k' ≠ k) : put g t k b u k' = g u k' := by
  by_cases hut : u = t
  · subst hut
    rw [put, Function.update_self, Function.update_of_ne (h.resolve_left (not_not.2 rfl))]
  · rw [put, Function.update_of_ne hut]

theorem holder_put_other {b : Bool} (hk : k' ≠ k) : ∀ j, Holder (put g t k b) f pc k' j → Holder g f pc k' j := by
  rintro (u | u) hu
  · rwa [Holder, put_other b (.inr hk)] at hu
  · exact hu

theorem holder_give : ∀ j, Holder (put g t k true) f pc k j → Holder g f pc k j ∨ j = .inl t := by
  rintro (u | u) hu
  · by_cases hut : u = t
    · exact .inr (congrArg Sum.inl hut)
    · rw [Holder, put_other true (.inl hut)] at hu
      exact .inl hu
  · exact .inl hu

theorem holder_take : ∀ j, Holder (put g t k false) f pc k j → Holder g f pc k j ∧ j ≠ .inl t := by
  rintro (u | u) hu
  · by_cases hut : u = t
    · subst hut
      rw [Holder, put_self] at hu
      cases hu
    · rw [Holder, put_other false (.inl hut)] at hu
      exact ⟨hu, fun heq => hut (Sum.inl.inj heq)⟩
  · exact ⟨hu, nofun⟩

variable {W : Type} [Zero W] {word : κ → W} {x : W}

/-- A call takes what was free, by a store of `x`. -/
theorem acquire (h : ∀ k, Exclusive (word k = 0) (Holder g f pc k)) (hfree : word k = 0) (hx : x ≠ 0)
    (hp : f p = some k) (k' : κ) :
    Exclusive (Function.update word k x k' = 0) (Holder g f (Function.update pc t p) k') := by
  by_cases hk : k' = k
  · subst hk
    rw [Function.update_self]
    exact (h k').acquire hfree hx holder_enter
  · rw [Function.update_of_ne hk]
    refine (h k').congr id (holder_keep fun hp' => absurd ?_ hk)
    exact Option.some.inj (hp'.symm.trans hp)

theorem release (h : ∀ k, Exclusive (word k = 0) (Holder g f pc k)) (hold : f (pc t) = some k)
    (hp : f p = none) (k' : κ) :
    Exclusive (Function.update word k 0 k' = 0) (Holder g f (Function.update pc t p) k') := by
  have hnone : ∀ k, f p ≠ some k := fun k => by rw [hp]; exact nofun
  by_cases hk : k' = k
  · subst hk
    exact (h k').release (i := .inr t) hold (holder_leave (hnone k'))
  · rw [Function.update_of_ne hk]
    exact (h k').congr id (holder_keep fun hp => absurd hp (hnone k'))

end Holder

section Underway

variable {f : Pc → Option Nat} {pc : T → Pc} {a n : Nat}

theorem underway_keep (h : Underway (fun t => f (pc t) = some a) n) (hp : f p = some a ↔ f (pc t) = some a) :
    Underway (fun u => f (Function.update pc t p u) = some a) n := by
  refine h.congr fun u => ?_
  by_cases hut : u = t
  · subst hut
    rw [Function.update_self]
    exact hp
  · rw [Function.update_of_ne hut]

theorem underway_enter (h : Underway (fun t => f (pc t) = some a) n) (hold : f (pc t) ≠ some a)
    (hp : f p = some a) : Underway (fun u => f (Function.update pc t p u) = some a) (n + 1) := by
  refine h.enter hold fun u => ?_
  by_cases hut : u = t
  · subst hut
    simp [hp]
  · rw [Function.update_of_ne hut]
    simp [hut]

theorem underway_leave (h : Underway (fun t => f (pc t) = some a) n) (hold : f (pc t) = some a)
    (hp : f p ≠ some a) : ∃ m, n = m + 1 ∧ Underway (fun u => f (Function.update pc t p u) = some a) m := by
  refine h.leave hold fun u => ?_
  by_cases hut : u = t
  · subst hut
    simp [hp]
  · rw [Function.update_of_ne hut]
    simp [hut]

/-- Two counters apart by the calls under way: a call that begins moves the first on. -/
theorem underway_begin {X Y : Nat → Nat} {b : Nat} (h : ∃ n, Underway (fun t => f (pc t) = some b) n ∧ X b = Y b + n)
    (hold : f (pc t) = none) (hp : f p = some a) :
    ∃ n, Underway (fun u => f (Function.update pc t p u) = some b) n ∧ Function.update X a (X a + 1) b = Y b + n := by
  obtain ⟨n, hn, heq⟩ := h
  by_cases hb : b = a
  · subst hb
    refine ⟨n + 1, underway_enter hn (by rw [hold]; exact nofun) hp, ?_⟩
    rw [Function.update_self]
    omega
  · refine ⟨n, underway_keep hn ?_, ?_⟩
    · rw [hold, hp]
      simp [Ne.symm hb]
    · rw [Function.update_of_ne hb]
      exact heq

/-- And one that ends moves the second. -/
theorem underway_end {X Y : Nat → Nat} {b : Nat} (h : ∃ n, Underway (fun t => f (pc t) = some b) n ∧ X b = Y b + n)
    (hold : f (pc t) = some a) (hp : f p = none) :
    ∃ n, Underway (fun u => f (Function.update pc t p u) = some b) n ∧ X b = Function.update Y a (Y a + 1) b + n := by
  obtain ⟨n, hn, heq⟩ := h
  by_cases hb : b = a
  · subst hb
    obtain ⟨m, rfl, hm⟩ := underway_leave hn hold (by rw [hp]; exact nofun)
    refine ⟨m, hm, ?_⟩
    rw [Function.update_self]
    omega
  · refine ⟨n, underway_keep hn ?_, ?_⟩
    · rw [hold, hp]
      simp [Ne.symm hb]
    · rw [Function.update_of_ne hb]
      exact heq

end Underway

/-! ## The invariant -/

namespace Sys

/-- Who is in a critical section of `l`. -/
def Inside (s : Sys T) (l : Lock) : T ⊕ T → Prop := Holder s.holds Pc.inside s.pc l

/-- Who has the mutex, from its being set to its being cleared. -/
def Owner (s : Sys T) (m : Nat) : T ⊕ T → Prop := Holder s.owns Pc.owning s.pc m

/-- What a thread has seen is still so. -/
def Seen (s : Sys T) : Pc → Prop
  | .lock_set m => s.state m = 0
  | .wait_load sem => 0 < s.count sem
  | .wait_store sem v => v = s.count sem - 1 ∧ 0 < s.count sem
  | .post_store sem v => v = s.count sem + 1
  | _ => True

end Sys

structure Inv (v : Nat → Int) (s : Sys T) : Prop where
  lock : ∀ l, Exclusive (s.locked l = 0) (s.Inside l)
  mutex : ∀ m, Exclusive (s.state m = 0) (s.Owner m)
  seen : ∀ t, s.Seen (s.pc t)
  count : ∀ sem, s.count sem = v sem + s.posted sem - s.taken sem ∧ (0 ≤ v sem → 0 ≤ s.count sem)
  posts : ∀ sem, ∃ n, Underway (fun t => (s.pc t).posting = some sem) n ∧ s.begun sem = s.posted sem + n
  waits : ∀ sem, ∃ n, Underway (fun t => (s.pc t).taking = some sem) n ∧ s.taken sem = s.completed sem + n

omit [DecidableEq T] in
/-- What a thread has seen is guarded by the lock it is inside of. -/
theorem Sys.Seen.congr {s' : Sys T} (h : s.Seen p) (hs : ∀ m, p.inside = some (.mtx m) → s'.state m = s.state m)
    (hc : ∀ sem, p.inside = some (.sem sem) → s'.count sem = s.count sem) : s'.Seen p := by
  cases p with
  | lock_set m => exact (hs m rfl).trans h
  | wait_load sem | wait_store sem v | post_store sem v =>
    rw [Seen, hc sem rfl]
    exact h
  | _ => trivial

theorem seen_update {s' : Sys T} {pc : T → Pc} (hp : s'.Seen p) (h : ∀ u, u ≠ t → s'.Seen (pc u)) (u : T) :
    s'.Seen (Function.update pc t p u) := by
  by_cases hut : u = t
  · subst hut
    rwa [Function.update_self]
  · rw [Function.update_of_ne hut]
    exact h u hut

namespace Inv

theorem posts_same (h : Inv v s) (hpost : p.posting = (s.pc t).posting) (sem : Nat) :
    ∃ n, Underway (fun u => (Function.update s.pc t p u).posting = some sem) n ∧ s.begun sem = s.posted sem + n := by
  obtain ⟨n, hn, hbegun⟩ := h.posts sem
  exact ⟨n, underway_keep hn (by rw [hpost]), hbegun⟩

theorem waits_same (h : Inv v s) (htake : p.taking = (s.pc t).taking) (sem : Nat) :
    ∃ n, Underway (fun u => (Function.update s.pc t p u).taking = some sem) n ∧ s.taken sem = s.completed sem + n := by
  obtain ⟨n, hn, htaken⟩ := h.waits sem
  exact ⟨n, underway_keep hn (by rw [htake]), htaken⟩

/-- A step that writes no mutex or count word: only who has the locks and the mutexes is left to say. -/
theorem locks {L : Lock → Nat} {H : T → Lock → Bool} {O : T → Nat → Bool} (h : Inv v s)
    (hlock : ∀ l, Exclusive (L l = 0) (Holder H Pc.inside (Function.update s.pc t p) l))
    (hmutex : ∀ m, Exclusive (s.state m = 0) (Holder O Pc.owning (Function.update s.pc t p) m))
    (hpost : p.posting = (s.pc t).posting) (htake : p.taking = (s.pc t).taking) (hseen : s.Seen p) :
    Inv v { s with locked := L, holds := H, owns := O, pc := Function.update s.pc t p } := by
  refine ⟨hlock, hmutex, seen_update ?_ fun u _ => ?_, h.count, h.posts_same hpost, h.waits_same htake⟩
  · exact hseen.congr (fun _ _ => rfl) fun _ _ => rfl
  · exact (h.seen u).congr (fun _ _ => rfl) fun _ _ => rfl

theorem mutex_same (h : Inv v s) (hown : p.owning = (s.pc t).owning) (m : Nat) :
    Exclusive (s.state m = 0) (Holder s.owns Pc.owning (Function.update s.pc t p) m) :=
  (h.mutex m).congr id (holder_keep fun hp => hown.symm.trans hp)

theorem lock_same {L : Lock → Nat} (h : Inv v s) (hL : ∀ l, L l = 0 → s.locked l = 0)
    (hin : p.inside = (s.pc t).inside) (l : Lock) :
    Exclusive (L l = 0) (Holder s.holds Pc.inside (Function.update s.pc t p) l) :=
  (h.lock l).congr (hL l) (holder_keep fun hp => hin.symm.trans hp)

theorem lock_give {l : Lock} (h : Inv v s) (hfree : s.locked l = 0) (hin : p.inside = none) (l' : Lock) :
    Exclusive (Function.update s.locked l 1 l' = 0)
      (Holder (put s.holds t l true) Pc.inside (Function.update s.pc t p) l') := by
  have hkeep : ∀ j, Holder (put s.holds t l true) Pc.inside (Function.update s.pc t p) l' j →
      Holder (put s.holds t l true) Pc.inside s.pc l' j :=
    holder_keep fun hp => absurd (hin.symm.trans hp) nofun
  by_cases hl : l' = l
  · subst hl
    refine (h.lock l').acquire hfree ?_ fun j hj => holder_give j (hkeep j hj)
    rw [Function.update_self]
    exact one_ne_zero
  · rw [Function.update_of_ne hl]
    exact (h.lock l').congr id fun j hj => holder_put_other hl j (hkeep j hj)

theorem lock_take {l : Lock} (h : Inv v s) (hheld : s.holds t l = true) (l' : Lock) :
    Exclusive (Function.update s.locked l 0 l' = 0) (Holder (put s.holds t l false) Pc.inside s.pc l') := by
  by_cases hl : l' = l
  · subst hl
    exact (h.lock l').release (i := .inl t) hheld holder_take
  · rw [Function.update_of_ne hl]
    exact (h.lock l').congr id (holder_put_other hl)

/-- `mutex_lock` returns: the mutex passes from the call to its caller. -/
theorem mutex_give {m : Nat} (h : Inv v s) (hown : (s.pc t).owning = some m) (hp : p.owning = none) (m' : Nat) :
    Exclusive (s.state m' = 0) (Holder (put s.owns t m true) Pc.owning (Function.update s.pc t p) m') := by
  have hnone : ∀ m, p.owning ≠ some m := fun m => by rw [hp]; exact nofun
  by_cases hm : m' = m
  · subst hm
    refine (h.mutex m').transfer (i := .inr t) (k := .inl t) hown id fun j hj => ?_
    obtain ⟨hj, hne⟩ := holder_leave (hnone m') j hj
    obtain hj | hj := holder_give j hj
    · exact .inl ⟨hj, hne⟩
    · exact .inr hj
  · refine (h.mutex m').congr id fun j hj => ?_
    exact holder_put_other hm j (holder_leave (hnone m') j hj).1

/-- `mutex_unlock` is called: the mutex passes from the caller to the call. -/
theorem mutex_take {m : Nat} (h : Inv v s) (hown : s.owns t m = true) (hp : p.owning = some m) (m' : Nat) :
    Exclusive (s.state m' = 0) (Holder (put s.owns t m false) Pc.owning (Function.update s.pc t p) m') := by
  by_cases hm : m' = m
  · subst hm
    refine (h.mutex m').transfer (i := .inl t) (k := .inr t) hown id fun j hj => ?_
    obtain hj | hj := holder_enter j hj
    · exact .inl (holder_take j hj)
    · exact .inr hj
  · refine (h.mutex m').congr id fun j hj => holder_put_other hm j (holder_keep (fun hp' => absurd ?_ hm) j hj)
    exact Option.some.inj (hp'.symm.trans hp)

/-! ## Stores inside a critical section -/

omit [DecidableEq T] in
theorem not_inside {l : Lock} {u : T} (h : Inv v s) (hin : (s.pc t).inside = some l) (hu : u ≠ t) :
    (s.pc u).inside ≠ some l := by
  intro hinu
  exact hu (Sum.inr.inj ((h.lock l).unique (.inr u) (.inr t) hinu hin))

/-- A store to a word of the lock that `t` is inside of changes nothing that others have seen. -/
theorem seen_store {l : Lock} {s' : Sys T} (h : Inv v s) (hin : (s.pc t).inside = some l)
    (hs : ∀ m, .mtx m ≠ l → s'.state m = s.state m) (hc : ∀ sem, .sem sem ≠ l → s'.count sem = s.count sem)
    (hp : s'.Seen p) (u : T) : s'.Seen (Function.update s.pc t p u) := by
  refine seen_update hp (fun u hu => (h.seen u).congr (fun m hm => hs m ?_) fun sem hsem => hc sem ?_) u
  · rintro rfl
    exact h.not_inside hin hu hm
  · rintro rfl
    exact h.not_inside hin hu hsem

/-- A store to a mutex word. -/
theorem store_state {m : Nat} {x : Int} (h : Inv v s) (hin : (s.pc t).inside = some (.mtx m))
    (hp : p.inside = some (.mtx m)) (hseen : ∀ s' : Sys T, s'.Seen p) (hpost : p.posting = (s.pc t).posting)
    (htake : p.taking = (s.pc t).taking)
    (hmutex : ∀ m', Exclusive (Function.update s.state m x m' = 0)
      (Holder s.owns Pc.owning (Function.update s.pc t p) m')) :
    Inv v { s with state := Function.update s.state m x, pc := Function.update s.pc t p } := by
  refine ⟨h.lock_same (fun _ => id) (hp.trans hin.symm), hmutex, ?_, h.count, h.posts_same hpost, h.waits_same htake⟩
  refine h.seen_store hin (fun m' hm' => Function.update_of_ne ?_ _ _) (fun _ _ => rfl) (hseen _)
  rintro rfl
  exact hm' rfl

theorem lock_set {m : Nat} (h : Inv v s) (hpc : s.pc t = .lock_set m) :
    Inv v { s with
      state := Function.update s.state m 1
      pc := Function.update s.pc t (.release (.mutex_lock m)) } := by
  have hfree : s.state m = 0 := by
    have hseen := h.seen t
    rwa [hpc] at hseen
  refine h.store_state (by rw [hpc]; rfl) rfl (fun _ => trivial) ?_ ?_ (acquire h.mutex hfree one_ne_zero rfl)
  · rw [hpc]; rfl
  · rw [hpc]; rfl

theorem unlock_clear {m : Nat} (h : Inv v s) (hpc : s.pc t = .unlock_clear m) :
    Inv v { s with
      state := Function.update s.state m 0
      pc := Function.update s.pc t (.release (.mutex_unlock m)) } := by
  refine h.store_state (by rw [hpc]; rfl) rfl (fun _ => trivial) ?_ ?_ (release h.mutex (by rw [hpc]; rfl) rfl)
  · rw [hpc]; rfl
  · rw [hpc]; rfl

/-- A store to a count. -/
theorem store_count {sem : Nat} {x : Int} {P K : Nat → Nat} (h : Inv v s)
    (hin : (s.pc t).inside = some (.sem sem)) (hp : p.inside = some (.sem sem))
    (hown : p.owning = (s.pc t).owning) (hseen : ∀ s' : Sys T, s'.Seen p)
    (hcount : ∀ a, Function.update s.count sem x a = v a + P a - K a ∧
      (0 ≤ v a → 0 ≤ Function.update s.count sem x a))
    (hposts : ∀ a, ∃ n, Underway (fun u => (Function.update s.pc t p u).posting = some a) n ∧ s.begun a = P a + n)
    (hwaits : ∀ a, ∃ n, Underway (fun u => (Function.update s.pc t p u).taking = some a) n ∧
      K a = s.completed a + n) :
    Inv v { s with
      count := Function.update s.count sem x, posted := P, taken := K, pc := Function.update s.pc t p } := by
  refine ⟨h.lock_same (fun _ => id) (hp.trans hin.symm), h.mutex_same hown, ?_, hcount, hposts, hwaits⟩
  refine h.seen_store hin (fun _ _ => rfl) (fun a ha => Function.update_of_ne ?_ _ _) (hseen _)
  rintro rfl
  exact ha rfl

theorem wait_store {sem : Nat} {x : Int} (h : Inv v s) (hpc : s.pc t = .wait_store sem x) :
    Inv v { s with
      count := Function.update s.count sem x
      taken := Function.update s.taken sem (s.taken sem + 1)
      pc := Function.update s.pc t (.release (.semaphore_wait sem)) } := by
  obtain ⟨hx, hpos⟩ : x = s.count sem - 1 ∧ 0 < s.count sem := by
    have hseen := h.seen t
    rwa [hpc] at hseen
  refine h.store_count (P := s.posted) (by rw [hpc]; rfl) rfl (by rw [hpc]; rfl) (fun _ => trivial)
    (fun a => ?_) (h.posts_same (by rw [hpc]; rfl)) fun a => underway_begin (h.waits a) (by rw [hpc]; rfl) rfl
  have hcount := h.count a
  by_cases ha : a = sem
  · subst ha
    rw [Function.update_self, Function.update_self]
    omega
  · rwa [Function.update_of_ne ha, Function.update_of_ne ha]

theorem post_store {sem : Nat} {x : Int} (h : Inv v s) (hpc : s.pc t = .post_store sem x) :
    Inv v { s with
      count := Function.update s.count sem x
      posted := Function.update s.posted sem (s.posted sem + 1)
      pc := Function.update s.pc t (.release (.semaphore_post sem)) } := by
  have hx : x = s.count sem + 1 := by
    have hseen := h.seen t
    rwa [hpc] at hseen
  refine h.store_count (K := s.taken) (by rw [hpc]; rfl) rfl (by rw [hpc]; rfl) (fun _ => trivial)
    (fun a => ?_) (fun a => underway_end (h.posts a) (by rw [hpc]; rfl) rfl) (h.waits_same (by rw [hpc]; rfl))
  have hcount := h.count a
  by_cases ha : a = sem
  · subst ha
    rw [Function.update_self, Function.update_self]
    omega
  · rwa [Function.update_of_ne ha, Function.update_of_ne ha]

/-! ## Beginning and ending calls -/

theorem begin_post {sem : Nat} (h : Inv v s) (hpc : s.pc t = .idle) :
    Inv v { s with
      begun := Function.update s.begun sem (s.begun sem + 1)
      pc := Function.update s.pc t (.tas (.semaphore_post sem)) } := by
  refine ⟨h.lock_same (fun _ => id) (by rw [hpc]; rfl), h.mutex_same (by rw [hpc]; rfl), ?_, h.count,
    fun a => underway_begin (h.posts a) (by rw [hpc]; rfl) rfl, h.waits_same (by rw [hpc]; rfl)⟩
  exact seen_update trivial fun u _ => (h.seen u).congr (fun _ _ => rfl) fun _ _ => rfl

theorem end_wait {sem : Nat} (h : Inv v s) (hpc : s.pc t = .release (.semaphore_wait sem)) :
    Inv v { s with
      locked := Function.update s.locked (.sem sem) 0
      completed := Function.update s.completed sem (s.completed sem + 1)
      pc := Function.update s.pc t .idle } := by
  refine ⟨release h.lock (by rw [hpc]; rfl) rfl, h.mutex_same (by rw [hpc]; rfl), ?_, h.count,
    h.posts_same (by rw [hpc]; rfl), fun a => underway_end (h.waits a) (by rw [hpc]; rfl) rfl⟩
  exact seen_update trivial fun u _ => (h.seen u).congr (fun _ _ => rfl) fun _ _ => rfl

theorem begin_ (h : Inv v s) (c : Call) (hallow : Allowed s t (.call c)) :
    Inv v ((s.begin_ t c).at_ t (.tas c)) := by
  cases c with
  | spin_lock l | mutex_lock m | semaphore_wait sem =>
    have hpc : s.pc t = .idle := hallow
    refine h.locks (h.lock_same (fun _ => id) ?_) (h.mutex_same ?_) ?_ ?_ trivial <;> rw [hpc] <;> rfl
  | mutex_unlock m =>
    obtain ⟨hpc, hown⟩ := hallow
    refine h.locks (h.lock_same (fun _ => id) ?_) (h.mutex_take hown rfl) ?_ ?_ trivial <;> rw [hpc] <;> rfl
  | semaphore_post sem => exact h.begin_post hallow

/-- A test-and-set that finds the lock free. -/
theorem enter (h : Inv v s) {c : Call} (hpc : s.pc t = .tas c) (hfree : s.locked c.lock = 0) :
    Inv v ((s.set_locked c.lock 1).enter t c) := by
  cases c with
  | spin_lock l =>
    refine h.locks (h.lock_give hfree rfl) (h.mutex_same ?_) ?_ ?_ trivial <;> rw [hpc] <;> rfl
  | mutex_lock m | mutex_unlock m | semaphore_wait sem | semaphore_post sem =>
    refine h.locks (acquire h.lock hfree one_ne_zero rfl) (h.mutex_same ?_) ?_ ?_ trivial <;> rw [hpc] <;> rfl

theorem return_ (h : Inv v s) {c : Call} (hpc : s.pc t = .release c) :
    Inv v (((s.set_locked c.lock 0).at_ t .idle).return_ t c) := by
  cases c with
  | spin_lock l | mutex_unlock m | semaphore_post sem =>
    refine h.locks (release h.lock ?_ rfl) (h.mutex_same ?_) ?_ ?_ trivial <;> rw [hpc] <;> rfl
  | mutex_lock m =>
    refine h.locks (release h.lock ?_ rfl) (h.mutex_give ?_ rfl) ?_ ?_ trivial <;> rw [hpc] <;> rfl
  | semaphore_wait sem => exact h.end_wait hpc

/-- A step that only moves on inside the call. -/
theorem move (h : Inv v s) (hin : p.inside = (s.pc t).inside) (hown : p.owning = (s.pc t).owning)
    (hpost : p.posting = (s.pc t).posting) (htake : p.taking = (s.pc t).taking) (hseen : s.Seen p) :
    Inv v (s.at_ t p) :=
  h.locks (h.lock_same (fun _ => id) hin) (h.mutex_same hown) hpost htake hseen

omit [DecidableEq T] in
/-- A test-and-set that finds the lock taken. -/
theorem busy {l : Lock} (h : Inv v s) (htaken : s.locked l ≠ 0) : Inv v (s.set_locked l 1) := by
  refine ⟨fun l' => (h.lock l').congr (fun h0 => ?_) fun _ => id, h.mutex, ?_, h.count, h.posts, h.waits⟩
  · change Function.update s.locked l 1 l' = 0 at h0
    by_cases hl : l' = l
    · subst hl
      rw [Function.update_self] at h0
      cases h0
    · rwa [Function.update_of_ne hl] at h0
  · exact fun u => (h.seen u).congr (fun _ _ => rfl) fun _ _ => rfl

theorem go (h : Inv v s) (t : T) : Inv v (s.go t) := by
  unfold Sys.go
  cases hpc : s.pc t with
  | idle => exact h
  | tas c =>
    dsimp only
    split_ifs with hfree
    · refine (h.busy hfree).move ?_ ?_ ?_ ?_ trivial <;> rw [Sys.set_locked, hpc] <;> cases c <;> rfl
    · exact h.enter hpc (not_not.1 hfree)
  | spin c =>
    dsimp only
    split_ifs with hfree
    · exact h
    · refine h.move ?_ ?_ ?_ ?_ trivial <;> rw [hpc] <;> cases c <;> rfl
  | lock_test m =>
    dsimp only
    split_ifs with hfree
    · refine h.move ?_ ?_ ?_ ?_ hfree <;> rw [hpc] <;> rfl
    · refine h.move ?_ ?_ ?_ ?_ trivial <;> rw [hpc] <;> rfl
  | lock_set m => exact h.lock_set hpc
  | unlock_clear m => exact h.unlock_clear hpc
  | wait_test sem =>
    dsimp only
    split_ifs with hpos
    · refine h.move ?_ ?_ ?_ ?_ hpos <;> rw [hpc] <;> rfl
    · refine h.move ?_ ?_ ?_ ?_ trivial <;> rw [hpc] <;> rfl
  | wait_load sem =>
    have hpos : 0 < s.count sem := by
      have hseen := h.seen t
      rwa [hpc] at hseen
    refine h.move ?_ ?_ ?_ ?_ ⟨rfl, hpos⟩ <;> rw [hpc] <;> rfl
  | wait_store sem x => exact h.wait_store hpc
  | post_load sem => refine h.move ?_ ?_ ?_ ?_ rfl <;> rw [hpc] <;> rfl
  | post_store sem x => exact h.post_store hpc
  | lock_retry m =>
    refine h.locks (release h.lock ?_ rfl) (h.mutex_same ?_) ?_ ?_ trivial <;> rw [hpc] <;> rfl
  | wait_retry sem =>
    refine h.locks (release h.lock ?_ rfl) (h.mutex_same ?_) ?_ ?_ trivial <;> rw [hpc] <;> rfl
  | release c => exact h.return_ hpc

/-! ## Whole runs -/

theorem exec (h : Inv v s) (e : T × Move) : Inv v (exec s e) := by
  obtain ⟨t, mv⟩ := e
  unfold Sync.exec
  dsimp only
  split_ifs with hallow
  · cases mv with
    | call c => exact h.begin_ c hallow
    | spin_trylock l =>
      have hpc : s.pc t = .idle := hallow
      dsimp only
      split_ifs with hfree
      · have hstep := h.locks (p := .idle) (h.lock_give hfree rfl) (h.mutex_same (by rw [hpc]))
          (by rw [hpc]) (by rw [hpc]) trivial
        rwa [← hpc, Function.update_eq_self] at hstep
      · exact h.busy hfree
    | spin_unlock l =>
      exact ⟨h.lock_take hallow.2, h.mutex, fun u => (h.seen u).congr (fun _ _ => rfl) fun _ _ => rfl,
        h.count, h.posts, h.waits⟩
    | go => exact h.go t
  · exact h

omit [DecidableEq T] in
theorem start (v : Nat → Int) : Inv v (start v : Sys T) := by
  refine ⟨fun l => .empty ?_, fun m => .empty ?_, fun t => trivial, fun sem => ⟨?_, id⟩,
    fun sem => ⟨0, .zero fun t => nofun, rfl⟩, fun sem => ⟨0, .zero fun t => nofun, rfl⟩⟩
  · rintro (t | t) <;> exact nofun
  · rintro (t | t) <;> exact nofun
  · simp [Sync.start]

theorem run (v : Nat → Int) (es : List (T × Move)) : Inv v (es.foldl Sync.exec (Sync.start v)) := by
  induction es using List.reverseRecOn with
  | nil => exact Inv.start v
  | append_singleton es e ih =>
    rw [List.foldl_append]
    exact ih.exec e

omit [DecidableEq T] in
theorem completed_le (h : Inv v s) {sem : Nat} (hv : 0 ≤ v sem) : (s.completed sem : Int) ≤ v sem + s.begun sem := by
  obtain ⟨hcount, hpos⟩ := h.count sem
  have hpos := hpos hv
  obtain ⟨n, -, hbegun⟩ := h.posts sem
  obtain ⟨m, -, htaken⟩ := h.waits sem
  omega

end Inv

/-- The thread holds the spinlock, or is between the lock and the unlock of it in a call. -/
def Critical (s : Sys T) (t : T) (l : Lock) : Prop := s.holds t l = true ∨ (s.pc t).inside = some l

omit [DecidableEq T] in
theorem Critical.inside {l : Lock} (h : Critical s t l) : s.Inside l (.inl t) ∨ s.Inside l (.inr t) := h

omit [DecidableEq T] in
theorem Inv.critical_unique (h : Inv v s) {l : Lock} {t u : T} (ht : Critical s t l) (hu : Critical s u l) : t = u := by
  have huniq := (h.lock l).unique
  obtain ht | ht := ht.inside <;> obtain hu | hu := hu.inside
  · exact Sum.inl.inj (huniq _ _ ht hu)
  · cases huniq _ _ ht hu
  · cases huniq _ _ ht hu
  · exact Sum.inr.inj (huniq _ _ ht hu)

/-- In every run of any number of threads: a mutex has at most one owner, a spinlock at most one thread in its
critical section, and a semaphore's count is what posts and waits made of it, never negative. -/
theorem sync_safe (v : Nat → Int) (es : List (T × Move)) :
    let s := es.foldl exec (start v)
    (∀ m t u, s.owns t m = true → s.owns u m = true → t = u) ∧
    (∀ l t u, Critical s t l → Critical s u l → t = u) ∧
    ∀ sem, 0 ≤ v sem → (s.completed sem : Int) ≤ v sem + s.begun sem ∧
      s.count sem = v sem + s.posted sem - s.taken sem ∧ 0 ≤ s.count sem := by
  intro s
  have h : Inv v s := Inv.run v es
  refine ⟨fun m t u ht hu => ?_, fun l t u => h.critical_unique, fun sem hv => ?_⟩
  · exact Sum.inl.inj ((h.mutex m).unique (.inl t) (.inl u) ht hu)
  · exact ⟨h.completed_le hv, (h.count sem).1, (h.count sem).2 hv⟩

/-- Thread 0 has locked the mutex, so it is the only one to have it. -/
theorem sync_safe_locked :
    let s := [(0, Move.call (.mutex_lock 7)), (1, .call (.mutex_lock 7)), (0, .go), (0, .go), (1, .go), (0, .go),
      (0, .go)].foldl exec (start (T := Nat) fun _ => 0)
    s.owns 0 7 = true ∧ ∀ t, s.owns t 7 = true → t = 0 := by
  intro s
  have howns : s.owns 0 7 = true := rfl
  exact ⟨howns, fun t ht => (sync_safe (fun _ => 0) _).1 7 t 0 ht howns⟩

end H3OS.Sync
