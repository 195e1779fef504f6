import MrLib.Protocol.LineStream

/-!
# Exact transfer

The loops of `read_n` and `write_n` of `protocol.c`, with the buffer and the running offset, against a kernel that
transfers any positive part of what is asked for and may fail at any step (`readSys`, `writeSys`). `exact_transfer`:
whatever the parts, `read_n` has stored the bytes of the stream up to `n` or its end, `write_n` has appended the bytes of
its buffer, and both stop at the first error with a prefix of these.
-/

namespace MrLib

open Conc Prog

/-- `SSIZE_MAX` -/
def ssizeMax : Nat := 2 ^ 63 - 1

/-- The conversion of a `size_t` to `ssize_t`. -/
def ssize (n : Nat) : Int := if n ≤ ssizeMax then n else (n : Int) - sizeT

/-- `total_read` and the buffer of `read_n`. -/
structure Reading where
  totalRead : Nat
  buffer : Bytes

/-- `read_n`, one iteration of its loop; it leaves with what it returns and the buffer. -/
def readNBlock (fd n : Nat) (st : Reading) : Prog Sys (Ret Val) (Except (Int × Bytes) Reading) :=
  if st.totalRead < n then
    .call (.read fd (n - st.totalRead)) fun
      | .val (.bytes bs) =>
        if bs.length = 0 then .ret (.error (ssize st.totalRead, st.buffer))
        else .ret (.ok ⟨(st.totalRead + bs.length) % sizeT, store st.buffer st.totalRead bs⟩)
      | _ => .ret (.error (-1, st.buffer))
  else .ret (.error (ssize st.totalRead, st.buffer))

/-- `write_n`, one iteration of its loop: `totalWritten` of the `n` bytes of the buffer have been written. -/
def writeNLoop (fd : Nat) (buffer : Bytes) (n totalWritten : Nat) : Prog Sys (Ret Val) (Except Int Nat) :=
  if totalWritten < n then
    .call (.write fd ((buffer.drop totalWritten).take (n - totalWritten))) fun
      | .val (.count k) => .ret (.ok ((totalWritten + k) % sizeT))
      | _ => .ret (.error (-1))
  else .ret (.error (ssize totalWritten))

/-! ## The kernel -/

/-- What is left of a stream before its end, and whether a call has failed. -/
structure Source where
  rest : Bytes
  failed : Bool

/-- A read returns any positive part of what it is asked for, nothing at the end of the stream, or fails. There is no
call after one that has failed. -/
def readSys (fd : Nat) (s : Source) (e : Sys) (r : Ret Val) (s' : Source) : Prop :=
  s.failed = false ∧
    match e with
    | .read f n => f = fd ∧
      ((∃ bs, r = .val (.bytes bs) ∧ s.rest = bs ++ s'.rest ∧ bs.length ≤ n ∧ (bs = [] → s.rest = []) ∧
          s'.failed = false) ∨
        r = .fail ∧ s' = { s with failed := true })
    | _ => False

/-- What was written, and whether a call has failed. -/
structure Sink where
  out : Bytes
  failed : Bool

/-- A write takes any positive part of what it is given, or fails. -/
def writeSys (fd : Nat) (s : Sink) (e : Sys) (r : Ret Val) (s' : Sink) : Prop :=
  s.failed = false ∧
    match e with
    | .write f bs => f = fd ∧
      ((∃ k, 0 < k ∧ k ≤ bs.length ∧ r = .val (.count k) ∧ s' = { s with out := s.out ++ bs.take k }) ∨
        r = .fail ∧ s' = { s with failed := true })
    | _ => False

/-! ## `read_n` -/

/-- `read_n` has consumed and stored `k` bytes of `stream`. -/
structure Stored (stream buffer : Bytes) (k : Nat) (s' : Source) (buffer' : Bytes) : Prop where
  rest : s'.rest = stream.drop k
  buffer : buffer' = stream.take k ++ buffer.drop k

/-- How `read_n` may end: with all that there was to read, or with less of it and an error. -/
def ReadEnds (stream buffer : Bytes) (n : Nat) (x : Int × Bytes) (s' : Source) : Prop :=
  if s'.failed then x.1 = -1 ∧ ∃ k < n, k ≤ stream.length ∧ Stored stream buffer k s' x.2
  else x.1 = min n stream.length ∧ Stored stream buffer (min n stream.length) s' x.2

/-- `bs` follows the first `k` bytes. -/
theorem store_prefix {stream buffer bs rest : Bytes} {k : Nat} (hk : k ≤ stream.length) (hs : stream.drop k = bs ++ rest) :
    store (stream.take k ++ buffer.drop k) k bs = stream.take (k + bs.length) ++ buffer.drop (k + bs.length) := by
  have hlen : (stream.take k).length = k := by simp [hk]
  have htake : stream.take (k + bs.length) = stream.take k ++ bs := by
    rw [List.take_add, hs, List.take_left]
  rw [store, List.take_left' hlen, List.drop_append, List.drop_eq_nil_of_le (by omega), hlen, htake, List.nil_append,
    List.drop_drop]
  simp

theorem readN_loop {fd n : Nat} {stream buffer : Bytes} (hn : n ≤ ssizeMax) :
    ∀ (m k : Nat) (s : Source), n - k < m → k ≤ n → k ≤ stream.length → s.failed = false → s.rest = stream.drop k →
      LoopWp (readSys fd) (readNBlock fd n) (ReadEnds stream buffer n) m
        (readNBlock fd n ⟨k, stream.take k ++ buffer.drop k⟩) s
  | 0, _, _, h, _, _, _, _ => absurd h (Nat.not_lt_zero _)
  | m + 1, k, s, h, hkn, hks, hf, hrest => by
    have hret : ssize k = k := if_pos (by omega)
    rw [LoopWp, readNBlock]
    split
    · rename_i hlt
      refine ⟨⟨.fail, _, hf, rfl, .inr ⟨rfl, rfl⟩⟩, ?_⟩
      rintro _ s' ⟨-, -, ⟨bs, rfl, hs, hle, hnil, hf'⟩ | ⟨rfl, rfl⟩⟩
      · by_cases hz : bs.length = 0
        · -- the end of the stream
          have hbs : bs = [] := List.eq_nil_of_length_eq_zero hz
          have hlen : stream.length ≤ k := by
            have := hnil hbs
            rw [hrest, List.drop_eq_nil_iff] at this
            exact this
          have hmin : min n stream.length = k := by omega
          subst hbs
          simp only [hz, if_true]
          show ReadEnds stream buffer n (ssize k, _) s'
          rw [ReadEnds, if_neg (by simp [hf']), hmin]
          exact ⟨hret, by rw [← hrest, hs]; rfl, rfl⟩
        · have hdrop : stream.drop k = bs ++ s'.rest := hrest.symm.trans hs
          have hlen : bs.length ≤ stream.length - k := by
            have := congrArg List.length hdrop
            simp only [List.length_drop, List.length_append] at this
            omega
          have hmod : (k + bs.length) % sizeT = k + bs.length := by
            apply Nat.mod_eq_of_lt
            simp only [ssizeMax, sizeT] at *
            omega
          have hle : bs.length ≤ n - k := hle
          simp only [hz, if_false, hmod, store_prefix hks hdrop]
          refine readN_loop hn m (k + bs.length) s' (by omega) (by omega) (by omega) hf' ?_
          rw [← List.drop_drop, hdrop, List.drop_left]
      · show ReadEnds stream buffer n (-1, _) _
        rw [ReadEnds, if_pos rfl]
        exact ⟨rfl, k, hlt, hks, hrest, rfl⟩
    · rename_i hge
      have hge : ¬ k < n := hge
      have hmin : min n stream.length = k := by omega
      show ReadEnds stream buffer n (ssize k, _) s
      rw [ReadEnds, if_neg (by simp [hf]), hmin]
      exact ⟨hret, hrest, rfl⟩

/-! ## `write_n` -/

/-- How `write_n` may end: with all bytes written, or with a prefix of them and an error. -/
def WriteEnds (buffer out : Bytes) (n : Nat) (r : Int) (s' : Sink) : Prop :=
  if s'.failed then r = -1 ∧ ∃ k < n, s'.out = out ++ buffer.take k
  else r = n ∧ s'.out = out ++ buffer.take n

theorem writeN_loop {fd n : Nat} {buffer out : Bytes} (hn : n ≤ ssizeMax) (hb : n ≤ buffer.length) :
    ∀ (m k : Nat) (s : Sink), n - k < m → k ≤ n → s.failed = false → s.out = out ++ buffer.take k →
      LoopWp (writeSys fd) (writeNLoop fd buffer n) (WriteEnds buffer out n) m (writeNLoop fd buffer n k) s
  | 0, _, _, h, _, _, _ => absurd h (Nat.not_lt_zero _)
  | m + 1, k, s, h, hkn, hf, hout => by
    have hret : ssize k = k := if_pos (by omega)
    rw [LoopWp, writeNLoop]
    split
    · rename_i hlt
      refine ⟨⟨.fail, _, hf, rfl, .inr ⟨rfl, rfl⟩⟩, ?_⟩
      rintro _ s' ⟨-, -, ⟨j, hj, hle, rfl, rfl⟩ | ⟨rfl, rfl⟩⟩
      · have hle : j ≤ n - k := by
          simp only [List.length_take, List.length_drop] at hle
          omega
        have hmod : (k + j) % sizeT = k + j := by
          apply Nat.mod_eq_of_lt
          simp only [ssizeMax, sizeT] at *
          omega
        simp only [hmod]
        refine writeN_loop hn hb m (k + j) _ (by omega) (by omega) hf ?_
        rw [hout, List.take_take, Nat.min_eq_left hle, List.append_assoc, List.take_add]
      · show WriteEnds buffer out n (-1) _
        rw [WriteEnds, if_pos rfl]
        exact ⟨rfl, k, hlt, hout⟩
    · have hk : k = n := by omega
      show WriteEnds buffer out n (ssize k) s
      rw [WriteEnds, if_neg (by simp [hf]), ← hk]
      exact ⟨hret, hout⟩

/-! ## The sequential code -/

/-- The calls of sequential code. -/
def ioSys {S : Type} (sys : S → Sys → Ret Val → S → Prop) (s : S) (c : Io) (r : IoRet) (s' : S) : Prop :=
  match c, r with
  | .sys e, .sys v => sys s e v s'
  | _, _ => False

/-- How the program `readN` may end. -/
def ProgEnds (stream : Bytes) (n : Nat) (r : Option Bytes) (s' : Source) : Prop :=
  if s'.failed then r = none ∧ ∃ k < n, k ≤ stream.length ∧ s'.rest = stream.drop k
  else r = some (stream.take n) ∧ s'.rest = stream.drop n

theorem readN_go_transfer (fd : Nat) : ∀ (fuel n : Nat) (s : Source), n ≤ fuel → s.failed = false →
    (readN.go fd fuel n).Wp (ioSys (readSys fd)) (ProgEnds s.rest n) s
  | 0, n, s, h, hf => by
    have h0 : n = 0 := by omega
    simp [readN.go, ProgEnds, h0, hf]
  | fuel + 1, n, s, h, hf => by
    rw [readN.go]
    split
    · rename_i h0
      simp [ProgEnds, h0, hf]
    · rename_i h0
      refine ⟨⟨.sys .fail, _, hf, rfl, .inr ⟨rfl, rfl⟩⟩, fun r s' he => ?_⟩
      cases r with
      | int r => exact he.elim
      | sys r =>
      obtain ⟨-, -, ⟨bs, rfl, hs, hle, hnil, hf'⟩ | ⟨rfl, hs'⟩⟩ := he
      rotate_left
      · subst hs'
        show ProgEnds s.rest n none _
        rw [ProgEnds, if_pos rfl]
        exact ⟨rfl, 0, by omega, Nat.zero_le _, rfl⟩
      · by_cases hb : bs = []
        · have hrest := hnil hb
          have hrest' : s'.rest = [] := by rw [hrest, hb] at hs; simpa using hs.symm
          simp [hb, ProgEnds, hf', hrest, hrest']
        · have hpos : 0 < bs.length := List.length_pos_iff.mpr hb
          simp only [hb, if_false]
          rw [Prog.wp_bind]
          refine (readN_go_transfer fd fuel (n - bs.length) s' (by omega) hf').mono fun r s'' hr => ?_
          unfold ProgEnds at hr
          show ProgEnds s.rest n _ s''
          rw [ProgEnds, hs]
          split at hr <;> rename_i hf''
          · obtain ⟨rfl, k, hk, hks, hr⟩ := hr
            rw [if_pos hf'']
            refine ⟨rfl, bs.length + k, by omega, by simp; omega, ?_⟩
            rw [hr, ← List.drop_drop, List.drop_left]
          · obtain ⟨rfl, hr⟩ := hr
            rw [if_neg hf'']
            simp [List.take_append, List.drop_append, List.take_of_length_le hle, List.drop_eq_nil_of_le hle, hr]

/-- **The program `readN` transfers what the loop of `read_n` does.** -/
theorem readN_transfer (fd n : Nat) (s : Source) (hf : s.failed = false) :
    (readN fd n).Wp (ioSys (readSys fd)) (ProgEnds s.rest n) s := readN_go_transfer fd n n s (le_refl n) hf

/-- And so does `writeNBlock`. -/
theorem writeNBlock_transfer {fd n : Nat} {out : Bytes} : ∀ (m : Nat) (pre rest : Bytes) (s : Sink),
    rest.length < m → (pre ++ rest).length = n → s.failed = false → s.out = out ++ pre →
      LoopWp (writeSys fd) (writeNBlock fd n) (WriteEnds (pre ++ rest) out n) m (writeNBlock fd n rest) s
  | 0, _, _, _, h, _, _, _ => absurd h (Nat.not_lt_zero _)
  | m + 1, pre, rest, s, h, hn, hf, hout => by
    rw [LoopWp, writeNBlock]
    split
    · rename_i hr
      subst hr
      rw [List.append_nil] at hn ⊢
      show WriteEnds pre out n n s
      rw [WriteEnds, if_neg (by simp [hf]), ← hn, List.take_length]
      exact ⟨rfl, hout⟩
    · rename_i hr
      have hpos := List.length_pos_iff.mpr hr
      refine ⟨⟨.fail, _, hf, rfl, .inr ⟨rfl, rfl⟩⟩, ?_⟩
      rintro _ s' ⟨-, -, ⟨j, hj, hle, rfl, rfl⟩ | ⟨rfl, rfl⟩⟩
      · have hsplit : pre ++ rest = (pre ++ rest.take j) ++ rest.drop j := by simp
        rw [hsplit] at hn ⊢
        refine writeNBlock_transfer m (pre ++ rest.take j) (rest.drop j) _ (by simp; omega) hn hf ?_
        rw [hout, List.append_assoc]
      · show WriteEnds (pre ++ rest) out n (-1) _
        rw [WriteEnds, if_pos rfl]
        refine ⟨rfl, pre.length, ?_, by rw [List.take_left]; exact hout⟩
        rw [← hn, List.length_append]
        omega

/-! ## Sequences of calls -/

/-- Calls of `read_n` one after the other, none with an error: the sizes and buffers they were given, and what they have
returned and stored. -/
inductive ReadCalls (fd : Nat) : Bytes → List (Nat × Bytes) → List (Int × Bytes) → Bytes → Prop
  | nil {s : Bytes} : ReadCalls fd s [] [] s
  | cons {s s' s'' : Bytes} {n : Nat} {buffer : Bytes} {calls : List (Nat × Bytes)} {x : Int × Bytes}
      {xs : List (Int × Bytes)}
      (h : Loop (readSys fd) (readNBlock fd n) ⟨s, false⟩ (readNBlock fd n ⟨0, buffer⟩) ⟨s', false⟩ x)
      (hs : ReadCalls fd s' calls xs s'') : ReadCalls fd s ((n, buffer) :: calls) (x :: xs) s''

/-- Calls of `write_n` one after the other, none with an error: the buffers they were given, and what they have
returned. -/
inductive WriteCalls (fd : Nat) : Bytes → List Bytes → List Int → Bytes → Prop
  | nil {out : Bytes} : WriteCalls fd out [] [] out
  | cons {out out' out'' : Bytes} {buffer : Bytes} {calls : List Bytes} {r : Int} {rs : List Int}
      (h : Loop (writeSys fd) (writeNLoop fd buffer buffer.length) ⟨out, false⟩
        (writeNLoop fd buffer buffer.length 0) ⟨out', false⟩ r)
      (hs : WriteCalls fd out' calls rs out'') : WriteCalls fd out (buffer :: calls) (r :: rs) out''

theorem readN_start {fd n : Nat} (hn : n ≤ ssizeMax) (stream buffer : Bytes) :
    LoopWp (readSys fd) (readNBlock fd n) (ReadEnds stream buffer n) (n + 1) (readNBlock fd n ⟨0, buffer⟩)
      ⟨stream, false⟩ :=
  readN_loop hn (n + 1) 0 ⟨stream, false⟩ (by omega) (Nat.zero_le _) (Nat.zero_le _) rfl rfl

theorem writeN_start {fd n : Nat} (hn : n ≤ ssizeMax) {buffer : Bytes} (hb : n ≤ buffer.length) (out : Bytes) :
    LoopWp (writeSys fd) (writeNLoop fd buffer n) (WriteEnds buffer out n) (n + 1) (writeNLoop fd buffer n 0)
      ⟨out, false⟩ :=
  writeN_loop hn hb (n + 1) 0 ⟨out, false⟩ (by omega) (Nat.zero_le _) rfl (by simp)

/-- What the calls of `read_n` return and store, by the bytes of the stream alone. -/
def readResults : Bytes → List (Nat × Bytes) → List (Int × Bytes)
  | _, [] => []
  | s, (n, buffer) :: calls =>
    ((min n s.length : Nat), s.take (min n s.length) ++ buffer.drop (min n s.length)) :: readResults (s.drop n) calls

theorem ReadCalls.eq {fd : Nat} {s s' : Bytes} {calls : List (Nat × Bytes)} {xs : List (Int × Bytes)}
    (h : ReadCalls fd s calls xs s') (hc : ∀ c ∈ calls, c.1 ≤ ssizeMax) :
    xs = readResults s calls ∧ s' = s.drop (calls.map Prod.fst).sum := by
  induction h with
  | nil => exact ⟨rfl, rfl⟩
  | @cons s s1 s2 n buffer calls x xs h _ ih =>
    obtain ⟨hn, hc⟩ := List.forall_mem_cons.mp hc
    have hx := (readN_start hn s buffer).run h
    rw [ReadEnds, if_neg (by simp)] at hx
    obtain ⟨hr, hrest, hbuf⟩ := hx
    have hs1 : s1 = s.drop n := by
      simp only at hrest
      rw [hrest]
      rcases Nat.le_total n s.length with hle | hle
      · rw [Nat.min_eq_left hle]
      · rw [Nat.min_eq_right hle, List.drop_eq_nil_of_le (le_refl _), List.drop_eq_nil_of_le hle]
    obtain ⟨ih1, ih2⟩ := ih hc
    refine ⟨?_, ?_⟩
    · rw [readResults, ih1, hs1, ← hbuf]
      congr 1
      exact Prod.ext (by simpa using hr) rfl
    · rw [ih2, hs1, List.drop_drop]
      simp

theorem WriteCalls.eq {fd : Nat} {out out' : Bytes} {calls : List Bytes} {rs : List Int} (h : WriteCalls fd out calls rs out')
    (hc : ∀ c ∈ calls, c.length ≤ ssizeMax) :
    rs = calls.map (fun c => (c.length : Int)) ∧ out' = out ++ calls.flatten := by
  induction h with
  | nil => simp
  | @cons out out1 out2 buffer calls r rs h _ ih =>
    obtain ⟨hn, hc⟩ := List.forall_mem_cons.mp hc
    have hx := (writeN_start hn (le_refl buffer.length) out).run h
    rw [WriteEnds, if_neg (by simp), List.take_length] at hx
    obtain ⟨rfl, ho⟩ := hx
    obtain ⟨rfl, rfl⟩ := ih hc
    simp only at ho
    simp [ho]

/-- **Exact transfer.** Whatever parts the kernel transfers, `read_n` and `write_n` end; without an error `read_n` has
consumed and stored the bytes up to `n` or the end of the stream and `write_n` has appended its `n` bytes, and each
returns their number; at the first error they return `-1`, with a prefix of these bytes transferred. What a sequence of
calls transfers is thus a function of the bytes alone. -/
theorem exact_transfer (fd n : Nat) (hn : n ≤ ssizeMax) :
    (∀ stream buffer, LoopWp (readSys fd) (readNBlock fd n) (ReadEnds stream buffer n) (n + 1)
      (readNBlock fd n ⟨0, buffer⟩) ⟨stream, false⟩) ∧
    (∀ buffer out, n ≤ buffer.length → LoopWp (writeSys fd) (writeNLoop fd buffer n) (WriteEnds buffer out n) (n + 1)
      (writeNLoop fd buffer n 0) ⟨out, false⟩) ∧
    (∀ stream rest calls xs, ReadCalls fd stream calls xs rest → (∀ c ∈ calls, c.1 ≤ ssizeMax) →
      xs = readResults stream calls ∧ rest = stream.drop (calls.map Prod.fst).sum) ∧
    (∀ out out' calls rs, WriteCalls fd out calls rs out' → (∀ c ∈ calls, c.length ≤ ssizeMax) →
      rs = calls.map (fun c => (c.length : Int)) ∧ out' = out ++ calls.flatten) :=
  ⟨readN_start hn, fun _ out hb => writeN_start hn hb out, fun _ _ _ _ h hc => h.eq hc, fun _ _ _ _ h hc => h.eq hc⟩

/-- A kernel that gives two bytes at a time: two calls for three and four bytes of a stream of five. -/
theorem readCalls_five : ∃ xs rest, ReadCalls 0 [1, 2, 3, 4, 5] [(3, [9, 9, 9, 9]), (4, [9, 9, 9, 9])] xs rest := by
  have part : ∀ (bs rest : Bytes) (n : Nat), bs ≠ [] → bs.length ≤ n →
      readSys 0 ⟨bs ++ rest, false⟩ (.read 0 n) (.val (.bytes bs)) ⟨rest, false⟩ :=
    fun bs rest n hb hn => ⟨rfl, rfl, .inl ⟨bs, rfl, rfl, hn, fun h => absurd h hb, rfl⟩⟩
  have atEnd : ∀ n, readSys 0 ⟨[], false⟩ (.read 0 n) (.val (.bytes [])) ⟨[], false⟩ :=
    fun n => ⟨rfl, rfl, .inl ⟨[], rfl, rfl, Nat.zero_le n, fun _ => rfl, rfl⟩⟩
  exact ⟨_, _,
    .cons (.next (.call (part [1, 2] _ _ (by decide) (by decide)) .ret)
      (.next (.call (part [3] _ _ (by decide) (by decide)) .ret) (.leave .ret)))
    (.cons (.next (.call (part [4, 5] [] _ (by decide) (by decide)) .ret) (.leave (.call (atEnd _) .ret))) .nil)⟩

/-- A kernel that takes a byte at a time, and then two. -/
theorem writeCalls_three : ∃ rs out, WriteCalls 1 [0] [[1, 2], [3, 4]] rs out := by
  have part : ∀ (out bs : Bytes) (k : Nat), 0 < k → k ≤ bs.length →
      writeSys 1 ⟨out, false⟩ (.write 1 bs) (.val (.count k)) ⟨out ++ bs.take k, false⟩ :=
    fun out bs k h0 hk => ⟨rfl, rfl, .inl ⟨k, h0, hk, rfl, rfl⟩⟩
  exact ⟨_, _,
    .cons (.next (.call (part _ _ 1 (by decide) (by decide)) .ret)
      (.next (.call (part _ _ 1 (by decide) (by decide)) .ret) (.leave .ret)))
    (.cons (.next (.call (part _ _ 2 (by decide) (by decide)) .ret) (.leave .ret)) .nil)⟩

/-- The calls return and transfer what the bytes say. -/
theorem exact_transfer_calls :
    (∃ s' x, Loop (readSys 0) (readNBlock 0 3) ⟨[1, 2, 3, 4, 5], false⟩ (readNBlock 0 3 ⟨0, [9, 9, 9, 9]⟩) s' x ∧
      ReadEnds [1, 2, 3, 4, 5] [9, 9, 9, 9] 3 x s') ∧
    (∃ s' r, Loop (writeSys 1) (writeNLoop 1 [1, 2] 2) ⟨[0], false⟩ (writeNLoop 1 [1, 2] 2 0) s' r ∧
      WriteEnds [1, 2] [0] 2 r s') ∧
    (∃ xs rest, ReadCalls 0 [1, 2, 3, 4, 5] [(3, [9, 9, 9, 9]), (4, [9, 9, 9, 9])] xs rest ∧
      xs = [(3, [1, 2, 3, 9]), (2, [4, 5, 9, 9])] ∧ rest = []) ∧
    ∃ rs out, WriteCalls 1 [0] [[1, 2], [3, 4]] rs out ∧ rs = [2, 2] ∧ out = [0, 1, 2, 3, 4] := by
  obtain ⟨xs, rest, hreads⟩ := readCalls_five
  obtain ⟨rs, out, hwrites⟩ := writeCalls_three
  have hread := (exact_transfer 0 3 (by decide)).2.2.1 _ _ _ _ hreads (by decide)
  have hwrite := (exact_transfer 1 2 (by decide)).2.2.2 _ _ _ _ hwrites (by decide)
  refine ⟨((exact_transfer 0 3 (by decide)).1 _ _).ends, ((exact_transfer 1 2 (by decide)).2.1 _ _ (by decide)).ends,
    ⟨xs, rest, hreads, hread.1.trans (by decide), hread.2.trans (by decide)⟩, ⟨rs, out, hwrites, ?_, ?_⟩⟩
  · exact hwrite.1.trans (by decide)
  · exact hwrite.2.trans (by decide)

end MrLib
