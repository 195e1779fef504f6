import MrLib.Sys

/-!
# Receiving from a pipe

`read_n`, `receive_pair_from_mapper_fd` and `receive_line_from_main_fd` of `protocol.c`. `read_n` fills a block of
memory from its start (`fill`), so after an early end of file the rest of the block is what was there before; neither
receiver checks for that.

In an environment where no call fails and a pipe delivers its bytes in parts of any size (`StreamEnv`), `read_n` reads
what it is asked for (`readN_spec`) and a message is received as it was written (`receivePair_wire`).
-/

namespace MrLib

open Conc

/-- Write `bs` to the start of a block. -/
def fill (block bs : Bytes) : Bytes := bs ++ block.drop bs.length

/-- The NUL-terminated string that starts a block. -/
def cstr (block : Bytes) : Bytes := block.takeWhile (· ≠ 0)

/-- `read_n`: the bytes read, fewer than `n` at the end of the file, or `none` for `-1`. No read returns more than it
is asked for, so `n` iterations are enough. -/
def readN (fd n : Nat) : IoProg (Option Bytes) := go n n
where
  go : Nat → Nat → IoProg (Option Bytes)
    | 0, _ => .ret (some [])
    | fuel + 1, n =>
      if n = 0 then .ret (some [])
      else .call (.sys (.read fd n)) fun
        | .sys (.val (.bytes bs)) =>
          if bs = [] then .ret (some [])
          else do
            let rest ← go fuel (n - bs.length)
            return rest.map (bs ++ ·)
        | _ => .ret none

theorem calls_readN {P : Io → Prop} {fd n : Nat} (hr : ∀ n, P (.sys (.read fd n))) : (readN fd n).Calls P Any := by
  suffices h : ∀ fuel m, (readN.go fd fuel m).Calls P Any from h n n
  intro fuel
  induction fuel with
  | zero => exact fun _ => trivial
  | succ fuel ih =>
    intro m
    unfold readN.go
    split
    · exact trivial
    · refine ⟨hr _, fun r => ?_⟩
      dsimp only
      split
      · split
        · exact trivial
        · exact (ih _).bind fun _ _ => trivial
      · exact trivial

/-- What `receive_pair_from_mapper_fd` returns; `token` is the block at `*out_token`, `none` for `NULL`. -/
inductive RecvPair
  | pair (token : Option Bytes) (value : Bytes)
  | eof
  | failed

/-- The value of a pair: `malloc`, then `read_n` if there is anything to read. -/
def receiveValue (fd valueLength : Nat) : IoProg (Option Bytes) := do
  match ← malloc valueLength with
  | none =>
    if 0 < valueLength then
      mrLogError "Failed to allocate memory for value"
      return none
    return some []
  | some block =>
    if 0 < valueLength then
      match ← readN fd valueLength with
      | none =>
        mrLogError "Failed to read value data from mapper process"
        return none
      | some bs => return some (fill block bs)
    return some []

/-- The token of a pair, with its NUL; `none` within `some` is `NULL`. -/
def receiveToken (fd tokenLength : Nat) : IoProg (Option (Option Bytes)) := do
  match ← malloc ((tokenLength + 1) % sizeT) with
  | none =>
    if 0 < tokenLength then
      mrLogError "Failed to allocate memory for token"
      return none
    return some none
  | some block =>
    if 0 < tokenLength then
      match ← readN fd tokenLength with
      | none =>
        mrLogError "Failed to read token from mapper process"
        return none
      | some bs => return some (some ((fill block bs).set tokenLength 0))
    return some (some (block.set tokenLength 0))

/-- `receive_pair_from_mapper_fd` -/
def receivePairFromMapperFd (fd : Nat) : IoProg RecvPair := do
  let junk ← uninit 16
  match ← readN fd 16 with
  | none =>
    mrLogError "Failed to read pair header from mapper process"
    return .failed
  | some [] => return .eof
  | some (b :: bs) =>
    let header := fill junk (b :: bs)
    match ← receiveToken fd (leNat (header.take 8)) with
    | none => return .failed
    | some token =>
      match ← receiveValue fd (leNat ((header.drop 8).take 8)) with
      | none => return .failed
      | some value => return .pair token value

/-- `receive_pair_from_mapper` -/
def receivePairFromMapper : IoProg RecvPair := receivePairFromMapperFd stdinFileno

/-! ## Lines -/

/-- `mr_main_receiver_t` -/
structure Receiver where
  currentFileName : Option Bytes
  currentFileNameLen : Nat
  currentLineNumber : Nat
  fileFinished : Bool

/-- `mr_main_receiver_init` -/
def mrMainReceiverInit : Receiver := ⟨none, 0, 0, true⟩

/-- What one iteration of `receive_line_from_main_fd` leads to. -/
inductive RecvLine
  /-- It returns 0. -/
  | line (l : FileLine) (receiver : Receiver)
  /-- `continue` -/
  | again (receiver : Receiver)
  /-- It returns 1. -/
  | eof (receiver : Receiver)
  | failed

/-- The content of a line: the block that `read_n` has filled. -/
def receiveLineContent (fd lineLength : Nat) : IoProg (Option Bytes) := do
  match ← malloc ((lineLength + 1) % sizeT) with
  | none =>
    mrLogError "Failed to allocate memory for line content"
    return none
  | some block =>
    if 0 < lineLength then
      match ← readN fd lineLength with
      | none =>
        mrLogError "Failed to read line data from main process"
        return none
      | some bs => return some ((fill block bs).take lineLength)
    return some []

/-- `receive_line_from_main_fd`, from the header of the line on. -/
def receiveLineHeader (fd : Nat) (receiver : Receiver) : IoProg RecvLine := do
  let junk ← uninit 16
  match ← readN fd 16 with
  | none =>
    mrLogError "Failed to read line header from main process"
    return .failed
  | some bs =>
    let header := fill junk bs
    if header.head? ≠ some 0 then return .again { receiver with fileFinished := true }
    let lineLength := leNat ((header.drop 8).take 8)
    match ← malloc ((receiver.currentFileNameLen + 1) % sizeT) with
    | none =>
      mrLogError "Failed to allocate memory for line file name"
      return .failed
    | some _ =>
      match ← receiveLineContent fd lineLength with
      | none => return .failed
      | some line =>
        return .line
          ⟨(receiver.currentFileName.getD []).take receiver.currentFileNameLen, receiver.currentLineNumber, line⟩
          { receiver with currentLineNumber := (receiver.currentLineNumber + 1) % sizeT }

/-- `receive_line_from_main_fd`, one iteration of its loop. -/
def receiveLineFromMainFd (fd : Nat) (receiver : Receiver) : IoProg RecvLine := do
  if receiver.fileFinished then
    let junk ← uninit 8
    match ← readN fd 8 with
    | none =>
      mrLogError "Failed to read file name header from main process"
      return .failed
    | some [] => return .eof { receiver with currentFileName := none }
    | some (b :: bs) =>
      let fileNameLength := leNat (fill junk (b :: bs))
      match ← malloc ((fileNameLength + 1) % sizeT) with
      | none =>
        mrLogError "Failed to allocate memory for file name"
        return .failed
      | some block =>
        match ← readN fd fileNameLength with
        | none =>
          mrLogError "Failed to read file name from main process"
          return .failed
        | some name =>
          receiveLineHeader fd ⟨some ((fill block name).set fileNameLength 0), fileNameLength, 1, false⟩
  else receiveLineHeader fd receiver

/-- `receive_line_from_main` -/
def receiveLineFromMain (receiver : Receiver) : IoProg RecvLine := receiveLineFromMainFd stdinFileno receiver

/-! ## Reading a stream -/

/-- The environment of a reader of the bytes `s` after which the pipe ends, when no call fails: a read returns at
least one of the bytes left, and as many as it likes of those it is asked for. An allocation is refused only when it
asks for more than `PTRDIFF_MAX` bytes, which no allocation can give. -/
def StreamEnv (s : Bytes) : Io → IoRet → Bytes → Prop
  | .log _ _, .int r, s' => r = 0 ∧ s' = s
  | .sys (.read _ n), .sys (.val (.bytes bs)), s' => s = bs ++ s' ∧ bs.length ≤ n ∧ (bs = [] → s = [] ∨ n = 0)
  | .sys (.malloc n), .sys (.val (.bytes block)), s' => n ≤ ptrdiffMax ∧ block.length = n ∧ s' = s
  | .sys (.malloc n), .sys .fail, s' | .sys (.realloc n), .sys .fail, s' => ptrdiffMax < n ∧ s' = s
  | .sys (.realloc n), .sys .ok, s' => n ≤ ptrdiffMax ∧ s' = s
  | .sys (.uninit n), .sys (.val (.bytes block)), s' => block.length = n ∧ s' = s
  | _, _, _ => False

section Stream

variable {s : Bytes} {α : Type} {Q : α → Bytes → Prop}

theorem malloc_spec {n : Nat} (hn : n ≤ ptrdiffMax) :
    (malloc n).Wp StreamEnv (fun r s' => (∃ block, r = some block ∧ block.length = n) ∧ s' = s) s := by
  refine ⟨⟨.sys (.val (.bytes (List.replicate n 0))), s, hn, by simp, rfl⟩, fun r s' he => ?_⟩
  match r, he with
  | .sys (.val (.bytes block)), ⟨_, hb, hs⟩ => exact ⟨⟨block, rfl, hb⟩, hs⟩
  | .sys .fail, ⟨hf, _⟩ => exact absurd hn (by omega)

theorem log_spec (level : Level) (format : String) :
    (mrLog level format).Wp StreamEnv (fun r s' => r = 0 ∧ s' = s) s := by
  refine ⟨⟨.int 0, s, rfl, rfl⟩, fun r s' he => ?_⟩
  match r, he with
  | .int r, ⟨hr, hs⟩ => exact ⟨hr, hs⟩

theorem uninit_spec (n : Nat) : (uninit n).Wp StreamEnv (fun block s' => block.length = n ∧ s' = s) s := by
  refine ⟨⟨.sys (.val (.bytes (List.replicate n 0))), s, by simp, rfl⟩, fun r s' he => ?_⟩
  match r, he with
  | .sys (.val (.bytes block)), ⟨hb, hs⟩ => exact ⟨hb, hs⟩

theorem wp_malloc {n : Nat} (hn : n ≤ ptrdiffMax) {k : Option Bytes → IoProg α}
    (h : ∀ block, block.length = n → (k (some block)).Wp StreamEnv Q s) :
    (malloc n >>= k).Wp StreamEnv Q s := by
  rw [Prog.wp_bind]
  refine (malloc_spec hn).mono ?_
  rintro r s' ⟨⟨block, rfl, hb⟩, rfl⟩
  exact h block hb

theorem wp_uninit {n : Nat} {k : Bytes → IoProg α} (h : ∀ block, block.length = n → (k block).Wp StreamEnv Q s) :
    (uninit n >>= k).Wp StreamEnv Q s := by
  rw [Prog.wp_bind]
  refine (uninit_spec n).mono ?_
  rintro block s' ⟨hb, rfl⟩
  exact h block hb

theorem readN_go_spec (fd : Nat) : ∀ (fuel n : Nat) (s : Bytes), n ≤ fuel →
    (readN.go fd fuel n).Wp StreamEnv (fun r s' => r = some (s.take n) ∧ s' = s.drop n) s
  | 0, n, s, h => by
    have : n = 0 := by omega
    simp [readN.go, this]
  | fuel + 1, n, s, h => by
    rw [readN.go]
    split
    · rename_i h0
      simp [h0]
    · rename_i h0
      refine ⟨⟨.sys (.val (.bytes (s.take n))), s.drop n, by simp, by simp, fun he => ?_⟩, fun r s' he => ?_⟩
      · rw [List.take_eq_nil_iff] at he
        exact he.symm
      · match r, he with
        | .sys (.val (.bytes bs)), ⟨hs, hl, hz⟩ =>
          subst hs
          by_cases hb : bs = []
          · subst hb
            have hnil : s' = [] := by simpa [h0] using hz rfl
            simp [hnil]
          · have hpos : 0 < bs.length := List.length_pos_iff.mpr hb
            simp only [hb, if_false]
            rw [Prog.wp_bind]
            refine (readN_go_spec fd fuel (n - bs.length) s' (by omega)).mono ?_
            rintro r s'' ⟨rfl, rfl⟩
            simp [List.take_append, List.drop_append, List.take_of_length_le hl, List.drop_eq_nil_of_le hl]

/-- **`read_n` reads what it is asked for, or up to the end of the file**, however the pipe cuts the bytes. -/
theorem readN_spec (fd n : Nat) (s : Bytes) :
    (readN fd n).Wp StreamEnv (fun r s' => r = some (s.take n) ∧ s' = s.drop n) s := readN_go_spec fd n n s (le_refl n)

theorem wp_readN {fd n : Nat} {k : Option Bytes → IoProg α} (h : (k (some (s.take n))).Wp StreamEnv Q (s.drop n)) :
    (readN fd n >>= k).Wp StreamEnv Q s := by
  rw [Prog.wp_bind]
  refine (readN_spec fd n s).mono ?_
  rintro r s' ⟨rfl, rfl⟩
  exact h

theorem length_fill {block bs : Bytes} : (fill block bs).length = max block.length bs.length := by
  simp only [fill, List.length_append, List.length_drop]
  omega

theorem fill_full {block bs : Bytes} (h : block.length ≤ bs.length) : fill block bs = bs := by
  simp [fill, List.drop_eq_nil_of_le h]

/-- The value of a message, whatever its size. -/
theorem receiveValue_spec (fd : Nat) (v : Obj) (rest : Bytes) :
    (receiveValue fd v.bytes.length).Wp StreamEnv (fun r s' => r = some v.bytes ∧ s' = rest) (v.bytes ++ rest) := by
  refine wp_malloc v.fits fun block hb => ?_
  simp only
  by_cases hl : 0 < v.bytes.length
  · simp only [hl, if_true]
    refine wp_readN ?_
    simp [fill_full (show block.length ≤ v.bytes.length by omega)]
  · have hnil : v.bytes = [] := List.eq_nil_of_length_eq_zero (by omega)
    simp [hnil]

theorem sizeBytes_length (n : Nat) : (sizeBytes n).length = 8 := length_leBytes 8 n

theorem leNat_sizeBytes {n : Nat} (h : n < sizeT) : leNat (sizeBytes n) = n :=
  leNat_leBytes 8 n (by simpa [sizeT] using h)

theorem CString.fits_size (t : CString) : t.bytes.length + 1 < sizeT := by
  have := t.fits
  simp only [ptrdiffMax, sizeT] at *
  omega

theorem Obj.fits_size (v : Obj) : v.bytes.length < sizeT := by
  have := v.fits
  simp only [ptrdiffMax, sizeT] at *
  omega

/-- The token of a message, with the NUL that ends it. -/
theorem receiveToken_spec (fd : Nat) (t : CString) (rest : Bytes) :
    (receiveToken fd t.bytes.length).Wp StreamEnv (fun r s' => r = some (some (t.bytes ++ [0])) ∧ s' = rest)
      (t.bytes ++ rest) := by
  have ht := t.fits
  rw [receiveToken, Nat.mod_eq_of_lt t.fits_size]
  refine wp_malloc (by omega) fun block hb => ?_
  obtain ⟨bs, b, rfl⟩ : ∃ bs b, block = bs ++ [b] := by
    rcases List.eq_nil_or_concat block with rfl | ⟨bs, b, rfl⟩
    · simp at hb
    · exact ⟨bs, b, List.concat_eq_append⟩
  simp only [List.length_append, List.length_singleton, Nat.add_right_cancel_iff] at hb
  simp only
  by_cases hl : 0 < t.bytes.length
  · simp only [hl, if_true]
    refine wp_readN ?_
    simp [fill, ← hb]
  · have hnil : t.bytes = [] := List.eq_nil_of_length_eq_zero (by omega)
    have hbs : bs = [] := List.eq_nil_of_length_eq_zero (by omega)
    simp [hnil, hbs]

/-- The header of a message on the wire, and what is in it. -/
theorem msgHeader_fields (m : Msg) {junk : Bytes} (rest : Bytes) (hj : junk.length = 16) :
    (m.wire ++ rest).take 16 = msgHeader m ∧
      (m.wire ++ rest).drop 16 = m.token.bytes ++ (m.value.bytes ++ rest) ∧
      leNat ((fill junk (msgHeader m)).take 8) = m.token.bytes.length ∧
      leNat (((fill junk (msgHeader m)).drop 8).take 8) = m.value.bytes.length := by
  have hw : m.wire ++ rest = msgHeader m ++ (m.token.bytes ++ (m.value.bytes ++ rest)) := by
    simp [Msg.wire]
  have hlen := length_msgHeader m
  rw [hw, List.take_left' hlen, List.drop_left' hlen, fill_full (by omega)]
  refine ⟨rfl, rfl, ?_, ?_⟩
  · rw [msgHeader, List.take_left' (sizeBytes_length _)]
    exact leNat_sizeBytes (Nat.lt_of_succ_lt m.token.fits_size)
  · rw [msgHeader, List.drop_left' (sizeBytes_length _), List.take_of_length_le (by simp [sizeBytes_length])]
    exact leNat_sizeBytes m.value.fits_size

/-- **A message on the wire is received as it was sent**, and nothing after it is touched. -/
theorem receivePair_wire (fd : Nat) (m : Msg) (rest : Bytes) :
    (receivePairFromMapperFd fd).Wp StreamEnv
      (fun r s' => r = .pair (some (m.token.bytes ++ [0])) m.value.bytes ∧ s' = rest) (m.wire ++ rest) := by
  refine wp_uninit fun junk hj => wp_readN ?_
  obtain ⟨ht, hd, h1, h2⟩ := msgHeader_fields m rest hj
  rw [ht, hd]
  obtain ⟨b, bs, hb⟩ : ∃ b bs, msgHeader m = b :: bs := ⟨_, _, rfl⟩
  rw [hb] at h1 h2 ⊢
  simp only [h1, h2]
  rw [Prog.wp_bind]
  refine (receiveToken_spec fd m.token _).mono ?_
  rintro r s' ⟨rfl, rfl⟩
  simp only
  rw [Prog.wp_bind]
  refine (receiveValue_spec fd m.value rest).mono ?_
  rintro r s' ⟨rfl, rfl⟩
  exact ⟨rfl, rfl⟩

/-- At the end of the stream there is no more message. -/
theorem receivePair_eof (fd : Nat) :
    (receivePairFromMapperFd fd).Wp StreamEnv (fun r s' => r = .eof ∧ s' = []) [] := by
  refine wp_uninit fun junk hj => wp_readN ?_
  simp

end Stream

end MrLib
