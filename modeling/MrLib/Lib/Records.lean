import MrLib.Lib.LittleEndian

/-!
# Records one after the other

A record format is a writer `write : ρ → List β` and a reader that takes one record off the front. If the reader undoes the
writer in front of any rest (`Undoes`) and no record is empty, then reading on to the end of a sequence of records
gives the sequence back (`Undoes.readAll`), so that different sequences are different bytes (`Undoes.injective`).

`sized` is the writer of a piece of bytes after its length, `readSized` its reader.
-/

namespace Conc

variable {β ρ σ : Type}

/-- Read records to the end of the bytes, at most `n` of them. -/
def readAll (read : List β → Option (ρ × List β)) : Nat → List β → Option (List ρ)
  | _, [] => some []
  | 0, _ :: _ => none
  | n + 1, b :: bs =>
    match read (b :: bs) with
    | none => none
    | some (x, rest) => (readAll read n rest).map (x :: ·)

/-- Reading in front of any rest gives what was written, as `f` shows it. -/
def Undoes (read : List β → Option (σ × List β)) (write : ρ → List β) (f : ρ → σ) : Prop :=
  ∀ x rest, read (write x ++ rest) = some (f x, rest)

variable {read : List β → Option (σ × List β)} {write : ρ → List β} {f : ρ → σ}

/-- **Reading on to the end.** -/
theorem Undoes.readAll (h : Undoes read write f) (hne : ∀ x, write x ≠ []) : ∀ (xs : List ρ) (n : Nat), xs.length ≤ n →
    readAll read n (xs.flatMap write) = some (xs.map f)
  | [], n, _ => by cases n <;> rfl
  | x :: xs, 0, hn => absurd hn (by simp)
  | x :: xs, n + 1, hn => by
    have hx := h x (xs.flatMap write)
    obtain ⟨b, bs, hb⟩ := List.exists_cons_of_ne_nil (hne x)
    rw [hb, List.cons_append] at hx
    rw [List.flatMap_cons, hb, List.cons_append, Conc.readAll, hx]
    simp only [Undoes.readAll h hne xs n (by simpa using hn), Option.map_some, List.map_cons]

/-- Different sequences are different bytes. -/
theorem Undoes.injective (h : Undoes read write f) (hne : ∀ x, write x ≠ []) (hf : Function.Injective f)
    {xs ys : List ρ} (he : xs.flatMap write = ys.flatMap write) : xs = ys := by
  have hx := h.readAll hne xs (max xs.length ys.length) (le_max_left _ _)
  have hy := h.readAll hne ys (max xs.length ys.length) (le_max_right _ _)
  rw [he, hy, Option.some.injEq] at hx
  exact (List.map_injective_iff.mpr hf hx).symm

/-- Bytes after their number, which is written in `k` bytes. -/
def sized (k : Nat) (bs : List UInt8) : List UInt8 := leBytes k bs.length ++ bs

/-- Read a number in `k` bytes, and as many bytes. -/
def readSized (k : Nat) (bs : List UInt8) : Option (List UInt8 × List UInt8) :=
  let n := leNat (bs.take k)
  if k ≤ bs.length ∧ n ≤ (bs.drop k).length then some ((bs.drop k).take n, (bs.drop k).drop n) else none

theorem readSized_sized {k : Nat} {bs : List UInt8} (h : bs.length < 256 ^ k) (rest : List UInt8) :
    readSized k (sized k bs ++ rest) = some (bs, rest) := by
  have hlen := length_leBytes k bs.length
  have htake : (sized k bs ++ rest).take k = leBytes k bs.length := by
    rw [sized, List.append_assoc, List.take_left' hlen]
  have hdrop : (sized k bs ++ rest).drop k = bs ++ rest := by
    rw [sized, List.append_assoc, List.drop_left' hlen]
  rw [readSized, htake, hdrop, leNat_leBytes k _ h, if_pos ⟨by simp [sized], by simp⟩]
  simp

end Conc
