import Mathlib
/-!
# Words between separators

The words of a list are the pieces that its separators leave, without the
empty ones: its maximal runs of other elements.
-/

namespace SysLib

variable {α : Type} [DecidableEq α] {c : α} {l x gap : List α}

def words (c : α) (l : List α) : List (List α) := (l.splitOn c).filter (· ≠ [])

theorem words_nil (c : α) : words c [] = [] := by
  simp [words]

/-- A separator keeps what is before it and what is behind it apart. -/
theorem words_append_cons (c : α) (l k : List α) : words c (l ++ c :: k) = words c l ++ words c k := by
  unfold words List.splitOn
  rw [List.splitOnP_append_cons l k (by simp), List.filter_append]

theorem words_cons (c : α) (l : List α) : words c (c :: l) = words c l := by
  have h := words_append_cons c [] l
  rwa [List.nil_append, words_nil, List.nil_append] at h

theorem words_single (hx : x ≠ []) (hc : c ∉ x) : words c x = [x] := by
  unfold words
  rw [List.splitOn_eq_singleton hc]
  simp [hx]

theorem words_gap (h : ∀ y ∈ gap, y = c) (l : List α) : words c (gap ++ l) = words c l := by
  induction gap with
  | nil => rfl
  | cons y gap ih =>
    rw [h y List.mem_cons_self, List.cons_append, words_cons, ih (fun y hy => h y (List.mem_cons_of_mem _ hy))]

theorem words_eq_nil (h : ∀ y ∈ l, y = c) : words c l = [] := by
  have hgap := words_gap h []
  rwa [List.append_nil, words_nil] at hgap

/-- The first word with the gap before it and, unless it ends the list, the separator behind it. -/
structure First (c : α) (l gap x sep rest : List α) : Prop where
  split : l = gap ++ x ++ sep ++ rest
  gap : ∀ y ∈ gap, y = c
  ne_nil : x ≠ []
  no_sep : c ∉ x
  stop : sep = [c] ∨ (sep = [] ∧ rest = [])

theorem First.words {sep rest : List α} (h : First c l gap x sep rest) : words c l = x :: words c rest := by
  rw [h.split, List.append_assoc, List.append_assoc, words_gap h.gap]
  rcases h.stop with rfl | ⟨rfl, rfl⟩
  · rw [List.singleton_append, words_append_cons, words_single h.ne_nil h.no_sep, List.singleton_append]
  · rw [List.append_nil, List.append_nil, words_single h.ne_nil h.no_sep, words_nil]

/-- A list has separators only, or a first word. -/
theorem first_word (c : α) (l : List α) : (∀ y ∈ l, y = c) ∨ ∃ gap x sep rest, First c l gap x sep rest := by
  have hsplit : l.takeWhile (· = c) ++ l.dropWhile (· = c) = l := List.takeWhile_append_dropWhile
  have hgap : ∀ y ∈ l.takeWhile (· = c), y = c := fun y hy => by simpa using List.mem_takeWhile_imp hy
  have hhead := List.head?_dropWhile_not (· = c) l
  generalize l.takeWhile (· = c) = gap at hsplit hgap
  cases hd : l.dropWhile (· = c) with
  | nil =>
    rw [hd, List.append_nil] at hsplit
    exact .inl (hsplit ▸ hgap)
  | cons y k =>
    rw [hd] at hsplit hhead
    have hy : y ≠ c := by simpa using hhead
    have hword : (y :: k).takeWhile (· ≠ c) ++ (y :: k).dropWhile (· ≠ c) = y :: k := List.takeWhile_append_dropWhile
    have hclean : c ∉ (y :: k).takeWhile (· ≠ c) := fun hc => by
      have := List.mem_takeWhile_imp hc
      simp at this
    have hne : (y :: k).takeWhile (· ≠ c) ≠ [] := by
      rw [List.takeWhile_cons_of_pos (by simpa using hy)]
      exact List.cons_ne_nil _ _
    have hnext := List.head?_dropWhile_not (· ≠ c) (y :: k)
    generalize (y :: k).takeWhile (· ≠ c) = x at hword hclean hne
    cases hs : (y :: k).dropWhile (· ≠ c) with
    | nil =>
      rw [hs, List.append_nil] at hword
      exact .inr ⟨gap, x, [], [], by rw [← hsplit, ← hword]; simp, hgap, hne, hclean, .inr ⟨rfl, rfl⟩⟩
    | cons s rest =>
      rw [hs] at hword hnext
      have hsc : s = c := by simpa using hnext
      exact .inr ⟨gap, x, [c], rest, by rw [← hsplit, ← hword, hsc]; simp, hgap, hne, hclean, .inl rfl⟩

end SysLib
