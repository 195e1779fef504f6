import Mathlib.Data.Nat.Find
import Mathlib.Logic.Function.Basic

/-!
# Descriptor tables

The descriptors of a process are finitely many numbers, each with the open file it stands for. `Fds.Lowest T fd` says
that `fd` is the number a new descriptor gets.
-/

namespace Conc

structure Fds (F : Type) where
  get : Nat → Option F
  limit : Nat
  closed : ∀ fd, limit ≤ fd → get fd = none

namespace Fds

variable {F G : Type}

/-- `fd` stands for `f`, whatever it stood for before. -/
def set (T : Fds F) (fd : Nat) (f : F) : Fds F where
  get := Function.update T.get fd (some f)
  limit := max T.limit (fd + 1)
  closed x hx := by
    rw [Function.update_of_ne (by omega)]
    exact T.closed x (by omega)

/-- `fd` is closed. -/
def clear (T : Fds F) (fd : Nat) : Fds F where
  get := Function.update T.get fd none
  limit := T.limit
  closed x hx := by
    by_cases h : x = fd
    · rw [h, Function.update_self]
    · rw [Function.update_of_ne h]
      exact T.closed x hx

def map (g : F → G) (T : Fds F) : Fds G where
  get fd := (T.get fd).map g
  limit := T.limit
  closed x hx := by rw [T.closed x hx, Option.map_none]

/-- `fd` is the lowest number that is free. -/
def Lowest (T : Fds F) (fd : Nat) : Prop := T.get fd = none ∧ ∀ x < fd, T.get x ≠ none

variable {T : Fds F} {fd a b : Nat} {f : F}

@[simp] theorem get_set (x : Nat) : (T.set fd f).get x = if x = fd then some f else T.get x := by
  by_cases h : x = fd <;> simp [set, h]

@[simp] theorem get_clear (x : Nat) : (T.clear fd).get x = if x = fd then none else T.get x := by
  by_cases h : x = fd <;> simp [clear, h]

@[simp] theorem get_map (g : F → G) (x : Nat) : (T.map g).get x = (T.get x).map g := rfl

theorem exists_lowest (T : Fds F) : ∃ fd, T.Lowest fd := by
  classical
  have h : ∃ fd, T.get fd = none := ⟨T.limit, T.closed _ le_rfl⟩
  exact ⟨Nat.find h, Nat.find_spec h, fun x hx => Nat.find_min h hx⟩

theorem Lowest.unique (ha : T.Lowest a) (hb : T.Lowest b) : a = b := by
  by_contra hne
  rcases Nat.lt_or_gt_of_ne hne with h | h
  · exact hb.2 a h ha.1
  · exact ha.2 b h hb.1

/-- The next number is above the one just taken. -/
theorem Lowest.lt_next (ha : T.Lowest a) (hb : (T.set a f).Lowest b) : a < b := by
  by_contra hle
  rcases Nat.lt_or_eq_of_le (Nat.le_of_not_lt hle) with h | rfl
  · refine ha.2 b h ?_
    simpa [Nat.ne_of_lt h] using hb.1
  · simpa using hb.1

end Fds

end Conc
