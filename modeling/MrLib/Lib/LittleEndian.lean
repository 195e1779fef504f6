import Mathlib.Data.List.Basic
import Mathlib.Tactic.Ring

/-!
# Unsigned integers as bytes

`leBytes k n` is `n` in `k` bytes, least significant first; `leNat` reads bytes back. Reading what was written gives the
number when it fits (`leNat_leBytes`), so equal bytes are equal numbers (`leBytes_inj`).
-/

namespace Conc

def leBytes : Nat → Nat → List UInt8
  | 0, _ => []
  | k + 1, n => UInt8.ofNat n :: leBytes k (n / 256)

def leNat : List UInt8 → Nat
  | [] => 0
  | b :: bs => b.toNat + 256 * leNat bs

@[simp] theorem length_leBytes : ∀ k n : Nat, (leBytes k n).length = k
  | 0, _ => rfl
  | k + 1, n => by simp [leBytes, length_leBytes k]

theorem leNat_leBytes : ∀ (k n : Nat), n < 256 ^ k → leNat (leBytes k n) = n
  | 0, n, h => by
    have : n = 0 := by simpa using h
    simp [leBytes, leNat, this]
  | k + 1, n, h => by
    have hd : n / 256 < 256 ^ k := by
      rw [Nat.div_lt_iff_lt_mul (by decide), ← Nat.pow_succ]
      exact h
    simp only [leBytes, leNat, leNat_leBytes k _ hd, UInt8.toNat_ofNat']
    omega

theorem leBytes_inj {k m n : Nat} (hm : m < 256 ^ k) (hn : n < 256 ^ k) (h : leBytes k m = leBytes k n) : m = n := by
  rw [← leNat_leBytes k m hm, ← leNat_leBytes k n hn, h]

theorem leNat_lt : ∀ bs : List UInt8, leNat bs < 256 ^ bs.length
  | [] => Nat.one_pos
  | b :: bs => by
    have hb := b.toNat_lt
    have ih := leNat_lt bs
    rw [leNat, List.length_cons, Nat.pow_succ]
    omega

theorem leNat_append : ∀ xs ys : List UInt8, leNat (xs ++ ys) = leNat xs + 256 ^ xs.length * leNat ys
  | [], ys => by simp [leNat]
  | x :: xs, ys => by
    rw [List.cons_append, leNat, leNat, leNat_append xs ys, List.length_cons, Nat.pow_succ]
    ring

theorem leNat_inj : ∀ {xs ys : List UInt8}, xs.length = ys.length → leNat xs = leNat ys → xs = ys
  | [], [], _, _ => rfl
  | x :: xs, y :: ys, hl, h => by
    have hx := x.toNat_lt
    have hy := y.toNat_lt
    simp only [leNat] at h
    have hhead : x = y := UInt8.toNat_inj.mp (by omega)
    rw [hhead, leNat_inj (Nat.succ.inj hl) (by omega)]

@[simp] theorem leNat_replicate : ∀ n : Nat, leNat (List.replicate n 0) = 0
  | 0 => rfl
  | n + 1 => by simp [List.replicate_succ, leNat, leNat_replicate n]

/-- The number is less than half of what its bytes could hold exactly if the last byte is. -/
theorem leNat_lt_half {bs : List UInt8} {k : Nat} (hk : bs.length = k + 1) :
    leNat bs < 128 * 256 ^ k ↔ bs.getD k 0 < 128 := by
  obtain ⟨xs, b, rfl⟩ : ∃ xs b, bs = xs ++ [b] :=
    ⟨bs.dropLast, bs.getLast (by rintro rfl; cases hk), (List.dropLast_append_getLast _).symm⟩
  obtain rfl : xs.length = k := by simpa using hk
  have hlt := leNat_lt xs
  have hb : (xs ++ [b]).getD xs.length 0 = b := by simp
  rw [hb, leNat_append, UInt8.lt_iff_toNat_lt]
  simp only [leNat, Nat.mul_zero, Nat.add_zero]
  constructor
  · intro h
    by_contra hn
    have : 256 ^ xs.length * 128 ≤ 256 ^ xs.length * b.toNat := Nat.mul_le_mul_left _ (Nat.not_lt.mp hn)
    omega
  · intro h
    have : 256 ^ xs.length * (b.toNat + 1) ≤ 256 ^ xs.length * 128 := Nat.mul_le_mul_left _ h
    rw [Nat.mul_add, Nat.mul_one] at this
    omega

end Conc
