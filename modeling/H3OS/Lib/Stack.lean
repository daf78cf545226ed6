import H3OS.Lib.Memory
/-!
# A stack of words

Stacked that are pushed in turn lie in memory the other way round, from the
stack pointer up. Pushing changes nothing at or above the old stack pointer.
-/

namespace SysLib

/-- The 64-bit words `ws` lie from `a` up. -/
def Stacked (m : Mem) (a : Nat) : List Nat → Prop
  | [] => True
  | w :: ws => load m a 8 = w ∧ Stacked m (a + 8) ws

/-- Memory once the words are pushed below `sp`. -/
def pushAll (m : Mem) (sp : Nat) : List Nat → Mem
  | [] => m
  | w :: ws => pushAll (store m (sp - 8) 8 w) (sp - 8) ws

section
variable {m m' : Mem} {a sp : Nat} {v : Nat} {vs ws : List Nat}

theorem stacked_nil : Stacked m a [] := trivial

theorem Stacked.congr (h : Stacked m a ws) (hm : ∀ x, a ≤ x → x < a + 8 * ws.length → m' x = m x) : Stacked m' a ws := by
  induction ws generalizing a with
  | nil => trivial
  | cons w ws ih =>
    rw [List.length_cons] at hm
    exact ⟨(load_congr fun x h1 h2 => hm x h1 (by omega)).trans h.1, ih h.2 fun x h1 h2 => hm x (by omega) (by omega)⟩

theorem stacked_append : Stacked m a (vs ++ ws) ↔ Stacked m a vs ∧ Stacked m (a + 8 * vs.length) ws := by
  induction vs generalizing a with
  | nil => simp [Stacked]
  | cons v vs ih =>
    have hlen : a + 8 + 8 * vs.length = a + 8 * (v :: vs).length := by
      rw [List.length_cons]
      omega
    rw [List.cons_append, Stacked, Stacked, ih, and_assoc, hlen]

theorem Stacked.push (h : Stacked m a ws) (ha : 8 ≤ a) (hv : v < 2 ^ 64) : Stacked (store m (a - 8) 8 v) (a - 8) (v :: ws) := by
  refine ⟨load_store_of_lt (hv.trans_le (by norm_num)), ?_⟩
  rw [Nat.sub_add_cancel ha]
  exact h.congr fun x h1 _ => store_out (by omega)

theorem Stacked.pushAll (h : Stacked m sp ws) (hsp : 8 * vs.length ≤ sp) (hv : ∀ v ∈ vs, v < 2 ^ 64) :
    Stacked (SysLib.pushAll m sp vs) (sp - 8 * vs.length) (vs.reverse ++ ws) := by
  induction vs generalizing m sp ws with
  | nil => exact h
  | cons v vs ih =>
    rw [List.length_cons] at hsp ⊢
    have hrest := ih (h.push (by omega) (hv v List.mem_cons_self)) (by omega) fun w hw => hv w (List.mem_cons_of_mem _ hw)
    rw [List.reverse_cons, List.append_assoc, List.singleton_append]
    rwa [show sp - 8 - 8 * vs.length = sp - 8 * (vs.length + 1) by omega] at hrest

theorem pushAll_out {x : Nat} (hsp : 8 * vs.length ≤ sp) (h : x < sp - 8 * vs.length ∨ sp ≤ x) :
    pushAll m sp vs x = m x := by
  induction vs generalizing m sp with
  | nil => rfl
  | cons v vs ih =>
    rw [List.length_cons] at hsp h
    exact (ih (by omega) (by omega)).trans (store_out (by omega))

theorem pushAll_append (m : Mem) (sp : Nat) (vs ws : List Nat) : pushAll m sp (vs ++ ws) = pushAll (pushAll m sp vs) (sp - 8 * vs.length) ws := by
  induction vs generalizing m sp with
  | nil => rfl
  | cons v vs ih =>
    rw [List.cons_append, pushAll, ih, pushAll, List.length_cons]
    rw [show sp - 8 - 8 * vs.length = sp - 8 * (vs.length + 1) by omega]

theorem Stacked.get (h : Stacked m a ws) {i : Nat} (hi : i < ws.length) : load m (a + 8 * i) 8 = ws[i] := by
  induction ws generalizing a i with
  | nil => exact absurd hi (Nat.not_lt_zero _)
  | cons w ws ih =>
    cases i with
    | zero => exact h.1
    | succ i =>
      rw [show a + 8 * (i + 1) = a + 8 + 8 * i by omega]
      exact ih h.2 (Nat.lt_of_succ_lt_succ hi)

end

end SysLib
