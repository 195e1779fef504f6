import Mathlib.Data.Set.Card
import Mathlib.Tactic.Ring

/-!
# Permits of a counting semaphore

`Permits n v H d`: of the `n` permits a semaphore was created with, `v` are free, every member of `H` holds one, and `d`
were held by somebody who left without giving them back. Taking a permit, giving it back and leaving with it keep the
sum; with one permit at most one member of `H` is there (`Permits.mutual`).
-/

namespace Conc

/-- The free, the held and the lost permits are all of them. -/
def Permits {T : Type} (n v : Nat) (H : Set T) (d : Nat) : Prop := (v : ℕ∞) + H.encard + d = n

variable {T : Type} {n v d : Nat} {H : Set T} {t u : T}

theorem Permits.all_free : Permits n n (∅ : Set T) 0 := by simp [Permits]

/-- One permit changes hands. -/
theorem Permits.acquire (h : Permits n (v + 1) H d) (ht : t ∉ H) : Permits n v (insert t H) d := by
  unfold Permits at *
  rw [Set.encard_insert_of_notMem ht, ← h]
  push_cast
  ring

theorem Permits.release (h : Permits n v H d) (ht : t ∈ H) : Permits n (v + 1) (H \ {t}) d := by
  unfold Permits at *
  rw [← h, ← Set.encard_sdiff_singleton_add_one ht]
  push_cast
  ring

/-- Leaving with a permit. -/
theorem Permits.lose (h : Permits n v H d) (ht : t ∈ H) : Permits n v (H \ {t}) (d + 1) := by
  unfold Permits at *
  rw [← h, ← Set.encard_sdiff_singleton_add_one ht]
  push_cast
  ring

theorem Permits.held_le (h : Permits n v H d) : H.encard ≤ n := by
  unfold Permits at h
  rw [← h, add_right_comm]
  exact le_add_self

/-- **One permit, one holder.** -/
theorem Permits.mutual (h : Permits 1 v H d) (ht : t ∈ H) (hu : u ∈ H) : t = u :=
  Set.encard_le_one_iff.mp (by simpa using h.held_le) t u ht hu

end Conc
