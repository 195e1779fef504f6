import Mathlib.Data.List.TakeWhile

/-!
# The pieces of a list

`pieces p xs` are the longest pieces of `xs` whose elements satisfy `p`, in their order: what a loop finds that skips the
elements that do not satisfy `p`, takes those that do, and goes on behind them (`pieces_next`, `pieces_end`).
-/

namespace Conc

variable {α : Type} {p : α → Bool} {xs : List α}

def pieces (p : α → Bool) (xs : List α) : List (List α) := (xs.splitOnP fun c => !p c).filter (· ≠ [])

theorem pieces_nil : pieces p [] = [] := rfl

/-- An element that is in no piece. -/
theorem pieces_cons {c : α} (h : p c = false) (xs : List α) : pieces p (c :: xs) = pieces p xs := by
  have := List.splitOnP_append_cons (p := fun c => !p c) [] xs (show (!p c) = true by simp [h])
  rw [List.nil_append, List.splitOnP_nil] at this
  rw [pieces, this, List.singleton_append, List.filter_cons_of_neg (by simp), ← pieces]

/-- A piece in front. -/
theorem pieces_append {xs ys : List α} (h : ∀ x ∈ xs, p x = true) (hne : xs ≠ []) (hy : ∀ y ∈ ys.head?, p y = false) :
    pieces p (xs ++ ys) = xs :: pieces p ys := by
  have hx : ∀ x ∈ xs, (!p x) = false := fun x hx => by simp [h x hx]
  cases ys with
  | nil =>
    rw [List.append_nil, pieces, List.splitOnP_eq_singleton hx, List.filter_cons_of_pos (by simp [hne])]
    rfl
  | cons y ys =>
    have hy : p y = false := hy y rfl
    rw [pieces_cons hy, pieces, List.splitOnP_append_cons_of_forall_mem hx y (by simp [hy]),
      List.filter_cons_of_pos (by simp [hne]), ← pieces]

theorem pieces_skip : ∀ xs : List α, pieces p xs = pieces p (xs.dropWhile fun c => !p c)
  | [] => rfl
  | c :: xs => by
    cases h : p c with
    | true => rw [List.dropWhile_cons_of_neg (by simp [h])]
    | false => rw [pieces_cons h, List.dropWhile_cons_of_pos (by simp [h]), pieces_skip xs]

/-- There is no piece left. -/
theorem pieces_end (h : (xs.dropWhile fun c => !p c) = []) : pieces p xs = [] := by
  rw [pieces_skip, h, pieces_nil]

theorem takeWhile_ne_nil (h : (xs.dropWhile fun c => !p c) ≠ []) : (xs.dropWhile fun c => !p c).takeWhile p ≠ [] := by
  have hhead := List.head_dropWhile_not (fun c => !p c) h
  obtain ⟨y, ys, hy⟩ := List.exists_cons_of_ne_nil h
  simp only [hy, List.head_cons, Bool.not_eq_eq_eq_not, Bool.not_false] at hhead
  rw [hy, List.takeWhile_cons_of_pos hhead]
  exact List.cons_ne_nil _ _

/-- What is behind the next piece is shorter. -/
theorem length_behind_lt (h : (xs.dropWhile fun c => !p c) ≠ []) :
    ((xs.dropWhile fun c => !p c).dropWhile p).length < xs.length := by
  have hpos := List.length_pos_iff.mpr (takeWhile_ne_nil h)
  have hsum := congrArg List.length (List.takeWhile_append_dropWhile (p := p) (l := xs.dropWhile fun c => !p c))
  have hle : (xs.dropWhile fun c => !p c).length ≤ xs.length := (List.dropWhile_suffix _).length_le
  rw [List.length_append] at hsum
  omega

/-- The next piece, and those behind it. -/
theorem pieces_next (h : (xs.dropWhile fun c => !p c) ≠ []) :
    pieces p xs = (xs.dropWhile fun c => !p c).takeWhile p :: pieces p ((xs.dropWhile fun c => !p c).dropWhile p) := by
  rw [pieces_skip]
  have hne := takeWhile_ne_nil h
  generalize (xs.dropWhile fun c => !p c) = ys at hne ⊢
  have hlast : ∀ y ∈ (ys.dropWhile p).head?, p y = false := fun y hy => by
    have := List.head?_dropWhile_not p ys
    rwa [Option.mem_def.mp hy] at this
  have := pieces_append (fun x hx => List.mem_takeWhile_imp hx) hne hlast
  rwa [List.takeWhile_append_dropWhile] at this

end Conc
