import Mathlib.Data.List.Basic
import Mathlib.Tactic.Ring

/-!
# Fixed-size slots in a block of cells

A block of memory is a list of cells. `store b off x` copies `x` into it at offset `off`, `load b off len` copies `len`
cells out. Cut into slots of `es` cells, the first `n` slots are `slots b es n`; storing into slot `n` leaves them
alone and makes `x` the next one (`slots_store`, `slots_store_succ`).
-/

namespace Conc

variable {β : Type}

/-- `memcpy(b + off, x, len)`. -/
def store (b : List β) (off : Nat) (x : List β) : List β := b.take off ++ x ++ b.drop (off + x.length)

/-- `memcpy(out, b + off, len)`. -/
def load (b : List β) (off len : Nat) : List β := (b.drop off).take len

/-- The first `n` slots of `es` cells. -/
def slots (b : List β) (es n : Nat) : List (List β) := (List.range n).map fun i => load b (i * es) es

theorem length_store {b x : List β} {off : Nat} (h : off + x.length ≤ b.length) :
    (store b off x).length = b.length := by
  simp only [store, List.length_append, List.length_take, List.length_drop]
  omega

theorem length_load {b : List β} {off len : Nat} (h : off + len ≤ b.length) : (load b off len).length = len := by
  simp only [load, List.length_take, List.length_drop]
  omega

theorem load_store_self {b x : List β} {off : Nat} (h : off ≤ b.length) : load (store b off x) off x.length = x := by
  have hl : (b.take off).length = off := by simp [h]
  simp only [load, store, List.append_assoc]
  rw [List.drop_append, List.drop_eq_nil_of_le (by omega), hl]
  simp

/-- A store does not change what lies below it. -/
theorem load_store_below {b x : List β} {off i len : Nat} (h : i + len ≤ off) (hb : off ≤ b.length) :
    load (store b off x) i len = load b i len := by
  have hl : (b.take off).length = off := by simp [hb]
  simp only [load, store, List.append_assoc]
  rw [List.drop_append_of_le_length (by omega), List.take_append_of_le_length (by rw [List.length_drop]; omega),
    List.drop_take, List.take_take]
  congr 1
  omega

@[simp] theorem slots_zero (b : List β) (es : Nat) : slots b es 0 = [] := rfl

@[simp] theorem length_slots (b : List β) (es n : Nat) : (slots b es n).length = n := by simp [slots]

theorem slots_succ (b : List β) (es n : Nat) : slots b es (n + 1) = slots b es n ++ [load b (n * es) es] := by
  simp [slots, List.range_succ]

/-- A store into slot `n` leaves the first `n` slots alone. -/
theorem slots_store {b x : List β} {es n : Nat} (h : n * es ≤ b.length) :
    slots (store b (n * es) x) es n = slots b es n := by
  apply List.map_congr_left
  intro i hi
  have hi' : i + 1 ≤ n := List.mem_range.mp hi
  have hle : (i + 1) * es ≤ n * es := Nat.mul_le_mul_right es hi'
  exact load_store_below (by rw [Nat.add_mul, Nat.one_mul] at hle; exact hle) h

/-- The stored slot comes on top of them. -/
theorem slots_store_succ {b x : List β} {es n : Nat} (hx : x.length = es) (h : n * es ≤ b.length) :
    slots (store b (n * es) x) es (n + 1) = slots b es n ++ [x] := by
  subst hx
  rw [slots_succ, slots_store h, load_store_self h]

end Conc
