import Mathlib.Data.List.TakeWhile
import MrLib.Protocol.Receive
import MrLib.Protocol.Send

/-!
# The stream of lines

The main process calls `send_file_to_mapper` on one file after the other; the mapper calls `receive_line_from_main_fd` on
what it has written. `write_n` and `read_n` may transfer their bytes in parts of any size.

`line_stream_round_trip`: the calls of the receiver return the lines of the files (`linesOf`), each with the path of its
file and its number there, and then 1 for ever.
-/

namespace MrLib

open Conc Prog

/-! ## The files -/

/-- The lines of a file: its contents cut at the newlines, without the empty piece after a newline at the very end. -/
def linesOf (contents : Bytes) : List Bytes :=
  let pieces := contents.splitOn 10
  if pieces.getLast? = some [] then pieces.dropLast else pieces

/-- An input file: its path, and its contents. Its size is an `off_t`, and each of its lines fits in memory. -/
structure InputFile where
  path : CString
  contents : Bytes
  size : contents.length ≤ ptrdiffMax
  fits : ∀ l ∈ linesOf contents, l.length < ptrdiffMax

/-- The lines of a file as they are received. -/
def InputFile.lines (f : InputFile) : List FileLine :=
  ((linesOf f.contents).zipIdx 1).map fun x => ⟨f.path.bytes, x.2, x.1⟩

/-- What `getline` reads from `rest`: everything up to the first newline, with it. -/
def nextLine (rest : Bytes) : Bytes := rest.takeWhile (· != 10) ++ (rest.dropWhile (· != 10)).take 1

/-- What it leaves. -/
def afterLine (rest : Bytes) : Bytes := (rest.dropWhile (· != 10)).drop 1

theorem linesOf_nil : linesOf [] = [] := by decide

/-- Bytes are one line, without or with its newline and what follows it. -/
theorem line_cases (rest : Bytes) :
    (10 : UInt8) ∉ rest ∨ ∃ l d, (10 : UInt8) ∉ l ∧ rest = l ++ 10 :: d := by
  by_cases h : (10 : UInt8) ∈ rest
  · obtain ⟨l, d, he, hl⟩ := List.eq_append_cons_of_mem h
    exact .inr ⟨l, d, hl, he⟩
  · exact .inl h

theorem nextLine_newline {l : Bytes} (d : Bytes) (h : (10 : UInt8) ∉ l) :
    nextLine (l ++ 10 :: d) = l ++ [10] ∧ afterLine (l ++ 10 :: d) = d := by
  have hp : ∀ b ∈ l, (b != 10) = true := fun b hb => bne_iff_ne.mpr fun e => h (e ▸ hb)
  simp [nextLine, afterLine, List.takeWhile_append_of_pos hp, List.dropWhile_append_of_pos hp]

theorem nextLine_last {l : Bytes} (h : (10 : UInt8) ∉ l) : nextLine l = l ∧ afterLine l = [] := by
  have hp : ∀ b ∈ l, (b != 10) = true := fun b hb => bne_iff_ne.mpr fun e => h (e ▸ hb)
  simp [nextLine, afterLine, List.takeWhile_eq_self_iff.mpr hp, List.dropWhile_eq_nil_iff.mpr hp]

theorem dropNewline_newline (l : Bytes) : dropNewline (l ++ [10]) = l := by simp [dropNewline]

theorem dropNewline_last {l : Bytes} (h : (10 : UInt8) ∉ l) : dropNewline l = l := by
  have : l.getLast? ≠ some 10 := fun e => h (List.mem_of_getLast? e)
  simp [dropNewline, this]

/-- Line by line. -/
theorem linesOf_cons {rest : Bytes} (h : rest ≠ []) :
    linesOf rest = dropNewline (nextLine rest) :: linesOf (afterLine rest) := by
  rcases line_cases rest with hn | ⟨l, d, hl, rfl⟩
  · rw [(nextLine_last hn).1, (nextLine_last hn).2, dropNewline_last hn, linesOf_nil]
    simp [linesOf, List.splitOn_eq_singleton hn, h]
  · rw [(nextLine_newline d hl).1, (nextLine_newline d hl).2, dropNewline_newline]
    obtain ⟨q, qs, hd⟩ := List.exists_cons_of_ne_nil (List.splitOn_ne_nil 10 d)
    simp only [linesOf, List.splitOn_append_cons_self_of_not_mem hl, hd, List.getLast?_cons_cons,
      List.dropLast_cons_cons]
    split <;> rfl

theorem nextLine_ne_nil {rest : Bytes} (h : rest ≠ []) : nextLine rest ≠ [] := by
  rcases line_cases rest with hn | ⟨l, d, hl, rfl⟩
  · rwa [(nextLine_last hn).1]
  · simp [(nextLine_newline d hl).1]

theorem length_afterLine {rest : Bytes} (h : rest ≠ []) : (afterLine rest).length < rest.length := by
  rcases line_cases rest with hn | ⟨l, d, hl, rfl⟩
  · rw [(nextLine_last hn).2]
    exact List.length_pos_iff.mpr h
  · simp [(nextLine_newline d hl).2]
    omega

/-- Induction along the lines of a file. -/
theorem line_induction {P : Bytes → Prop} (nil : P []) (cons : ∀ rest, rest ≠ [] → P (afterLine rest) → P rest)
    (rest : Bytes) : P rest := by
  by_cases h : rest = []
  · rw [h]
    exact nil
  · exact cons rest h (line_induction nil cons (afterLine rest))
termination_by rest.length
decreasing_by exact length_afterLine h

/-- A file has no more lines than bytes. -/
theorem length_linesOf (contents : Bytes) : (linesOf contents).length ≤ contents.length := by
  induction contents using line_induction with
  | nil => simp [linesOf_nil]
  | cons rest h ih =>
    have := length_afterLine h
    rw [linesOf_cons h, List.length_cons]
    omega

/-! ## Writing -/

/-- `write_n`, one iteration of its loop: `rest` of the `n` bytes has not been written. -/
def writeNBlock (fd n : Nat) (rest : Bytes) : Prog Sys (Ret Val) (Except Int Bytes) :=
  if rest = [] then .ret (.error n)
  else .call (.write fd rest) fun
    | .val (.count k) => .ret (.ok (rest.drop k))
    | _ => .ret (.error (-1))

/-- The main process while it sends a file: what `getline` has not read of it, and what the pipe has taken. -/
structure Sending where
  rest : Bytes
  out : Bytes

/-- Calls that do not fail, while the main process sends the file `f` through `writeFd`: there is no other file to open;
a write takes at least one byte, and as many as it likes of those it is given. -/
def sendSys (writeFd : Nat) (f : InputFile) (s : Sending) (e : Sys) (r : Ret Val) (s' : Sending) : Prop :=
  match e with
  | .fopen .input path => path = f.path.bytes ∧ r = .ok ∧ s' = { s with rest := f.contents }
  | .getline =>
    if s.rest = [] then r = .fail ∧ s' = s
    else r = .val (.bytes (nextLine s.rest)) ∧ s' = { s with rest := afterLine s.rest }
  | .ferror .input | .fclose .input => r = .ok ∧ s' = s
  | .uninit n => (∃ block : Bytes, block.length = n ∧ r = .val (.bytes block)) ∧ s' = s
  | .write fd bs =>
    fd = writeFd ∧ ∃ k, 0 < k ∧ k ≤ bs.length ∧ r = .val (.count k) ∧ s' = { s with out := s.out ++ bs.take k }
  | _ => False

/-- The same for the calls of sequential code; a `write_n` is a run of its loop. -/
def sendEnv (writeFd : Nat) (f : InputFile) (s : Sending) (c : Io) (r : IoRet) (s' : Sending) : Prop :=
  match c with
  | .log _ _ => r = .int 0 ∧ s' = s
  | .writeN fd bs => ∃ n : Int, r = .int n ∧
      Loop (sendSys writeFd f) (writeNBlock fd bs.length) s (writeNBlock fd bs.length bs) s' n
  | .sys e => ∃ v, r = .sys v ∧ sendSys writeFd f s e v s'

variable {writeFd : Nat} {f : InputFile} {s : Sending}

/-- **`write_n` writes what it is given**, however the pipe takes it. -/
theorem writeN_spec (writeFd : Nat) (f : InputFile) (n : Nat) : ∀ (m : Nat) (rest : Bytes) (s : Sending), rest.length < m →
    LoopWp (sendSys writeFd f) (writeNBlock writeFd n)
      (fun r s' => r = n ∧ s' = { s with out := s.out ++ rest }) m (writeNBlock writeFd n rest) s
  | 0, _, _, h => absurd h (Nat.not_lt_zero _)
  | m + 1, rest, s, h => by
    by_cases hr : rest = []
    · subst hr
      simp [LoopWp, writeNBlock]
    · have hpos := List.length_pos_iff.mpr hr
      rw [LoopWp, writeNBlock, if_neg hr]
      refine ⟨⟨_, _, rfl, rest.length, hpos, le_rfl, rfl, rfl⟩, ?_⟩
      rintro _ _ ⟨-, k, hk, hle, rfl, rfl⟩
      refine (writeN_spec writeFd f n m (rest.drop k) _ (by simp; omega)).mono ?_
      rintro r s' ⟨rfl, rfl⟩
      simp [List.append_assoc, List.take_append_drop]

/-! ## Sending a file -/

/-- `send_file_to_mapper`, up to its loop. -/
def sendFile (job : Job) (caller : SendCaller) (filePath : Bytes) : IoProg (Except Leave Unit) :=
  (do let _ ← sendFileToMapper job caller filePath : Fn Unit).run

/-- `send_file_to_mapper`, from the head of its loop to the next. -/
def sendFileBlock (job : Job) (caller : SendCaller) (filePath : Bytes) (_ : Unit) : IoProg (Except Leave Unit) :=
  (do let _ ← sendFileLoop job caller filePath : Fn Unit).run

/-- The lines of a file on the wire, up to its eof header; the padding of a header may be anything. -/
inductive LineWires : List Bytes → Bytes → Prop
  | eof (pad : Bytes) (hp : pad.length = 7) : LineWires [] (1 :: pad ++ sizeBytes 0)
  | line {l : Bytes} {ls : List Bytes} {w : Bytes} (pad : Bytes) (hp : pad.length = 7) (h : LineWires ls w) :
      LineWires (l :: ls) ((0 :: pad ++ sizeBytes l.length) ++ l ++ w)

/-- A file on the wire. -/
inductive FileWire (f : InputFile) : Bytes → Prop
  | mk {w : Bytes} (h : LineWires (linesOf f.contents) w) :
      FileWire f (sizeBytes f.path.bytes.length ++ f.path.bytes ++ w)

/-- Files on the wire, one after the other. -/
inductive FileWires : List InputFile → Bytes → Prop
  | nil : FileWires [] []
  | cons {f : InputFile} {fs : List InputFile} {w ws : Bytes} (h : FileWire f w) (hs : FileWires fs ws) :
      FileWires (f :: fs) (w ++ ws)

section Send

variable {α : Type} {Q : α → Sending → Prop}

theorem wp_log {level : Level} {format : String} {Q : Int → Sending → Prop} (h : Q 0 s) :
    (mrLog level format).Wp (sendEnv writeFd f) Q s := by
  refine ⟨⟨_, _, rfl, rfl⟩, ?_⟩
  rintro _ _ ⟨rfl, rfl⟩
  exact h

theorem wp_sysInt {e : Sys} {Q : Int → Sending → Prop} {s' : Sending}
    (he : ∀ r t, sendSys writeFd f s e r t ↔ r = .ok ∧ t = s') (h : Q 0 s') :
    (sysInt e).Wp (sendEnv writeFd f) Q s := by
  refine ⟨⟨_, _, _, rfl, (he _ _).mpr ⟨rfl, rfl⟩⟩, ?_⟩
  rintro _ _ ⟨v, rfl, hv⟩
  obtain ⟨rfl, rfl⟩ := (he _ _).mp hv
  exact h

theorem wp_writeN {bs : Bytes} {Q : Int → Sending → Prop} (h : Q bs.length { s with out := s.out ++ bs }) :
    (writeN writeFd bs).Wp (sendEnv writeFd f) Q s := by
  have hw := writeN_spec writeFd f bs.length _ bs s (Nat.lt_succ_self _)
  refine ⟨?_, ?_⟩
  · obtain ⟨s', n, hl, -⟩ := hw.ends
    exact ⟨_, s', n, rfl, hl⟩
  · rintro _ s' ⟨n, rfl, hl⟩
    obtain ⟨rfl, rfl⟩ := hw.run hl
    exact h

theorem wp_lineHeader {eof : Bool} {n : Nat} {Q : Bytes → Sending → Prop}
    (h : ∀ pad : Bytes, pad.length = 7 → Q ((if eof then 1 else 0) :: pad ++ sizeBytes n) s) :
    (lineHeader eof n).Wp (sendEnv writeFd f) Q s := by
  refine ⟨⟨_, s, _, rfl, ⟨List.replicate 7 0, by simp, rfl⟩, rfl⟩, ?_⟩
  rintro _ _ ⟨_, rfl, ⟨pad, hp, rfl⟩, rfl⟩
  exact h pad hp

variable {job : Job} {caller : SendCaller}

/-- The name of the file. -/
theorem sendFile_spec : (sendFile job caller f.path.bytes).Wp (sendEnv job.mainToMapper.2 f)
    (fun x s' => x = .ok () ∧ s' = ⟨f.contents, s.out ++ (sizeBytes f.path.bytes.length ++ f.path.bytes)⟩) s := by
  refine wp_fn_bind (wp_fn_bind ?_)
  refine wp_check (wp_log ⟨by decide, ?_⟩)
  refine wp_check (wp_sysInt (fun _ _ => and_iff_right rfl) ⟨by decide, ?_⟩)
  refine wp_check (wp_writeN ⟨by omega, ?_⟩)
  refine wp_check_last (wp_writeN ⟨by omega, rfl, ?_⟩)
  simp

/-- A line of the file, or its end. -/
theorem sendFileBlock_spec (path : Bytes) :
    (sendFileBlock job caller path ()).Wp (sendEnv job.mainToMapper.2 f)
      (fun x s' => ∃ pad : Bytes, pad.length = 7 ∧
        if s.rest = [] then x = .error (.ret 0) ∧ s' = { s with out := s.out ++ (1 :: pad ++ sizeBytes 0) }
        else x = .ok () ∧ s' = ⟨afterLine s.rest, s.out ++ ((0 :: pad ++
          sizeBytes (dropNewline (nextLine s.rest)).length) ++ dropNewline (nextLine s.rest))⟩) s := by
  refine wp_fn_bind (wp_fn_bind ?_)
  by_cases hr : s.rest = []
  · refine wp_lift ⟨⟨_, _, _, rfl, by simp only [sendSys, if_pos hr]; exact ⟨rfl, rfl⟩⟩, ?_⟩
    rintro _ s' ⟨v, rfl, hv⟩
    simp only [sendSys, hr, if_true] at hv
    obtain ⟨rfl, rfl⟩ := hv
    refine wp_fn_bind ?_
    refine wp_check (wp_sysInt (fun _ _ => Iff.rfl) ⟨by decide, ?_⟩)
    refine wp_lift (wp_lineHeader fun pad hp => ?_)
    refine wp_check (wp_writeN ⟨by omega, ?_⟩)
    refine wp_check (wp_sysInt (fun _ _ => Iff.rfl) ⟨by decide, ?_⟩)
    refine wp_check_last (wp_log ⟨by decide, pad, hp, ?_⟩)
    simp [hr]
  · obtain ⟨b, bs, hb⟩ := List.exists_cons_of_ne_nil (nextLine_ne_nil hr)
    refine wp_lift ⟨⟨_, _, _, rfl, by simp only [sendSys, if_neg hr]; exact ⟨rfl, rfl⟩⟩, ?_⟩
    rintro _ s' ⟨v, rfl, hv⟩
    simp only [sendSys, if_neg hr, hb] at hv
    obtain ⟨rfl, rfl⟩ := hv
    refine wp_lift (wp_lineHeader fun pad hp => ?_)
    refine wp_check (wp_writeN ⟨by omega, ?_⟩)
    by_cases hl : 0 < (dropNewline (b :: bs)).length
    · simp only [hl, if_true]
      refine wp_check (wp_writeN ⟨by omega, pad, hp, ?_⟩)
      rw [if_neg hr, hb]
      simp
    · have hnil : dropNewline (b :: bs) = [] := List.eq_nil_of_length_eq_zero (by omega)
      simp only [hl, if_false]
      refine ⟨pad, hp, ?_⟩
      rw [if_neg hr, hb, hnil]
      simp

/-- The lines of the file from `rest` on, and its end. -/
theorem sendFileLoop_spec (path rest : Bytes) (out : Bytes) :
    LoopWp (sendEnv job.mainToMapper.2 f) (sendFileBlock job caller path)
      (fun x s' => x = .ret 0 ∧ ∃ w, LineWires (linesOf rest) w ∧ s'.out = out ++ w) ((linesOf rest).length + 1)
      (sendFileBlock job caller path ()) ⟨rest, out⟩ := by
  induction rest using line_induction generalizing out with
  | nil =>
    refine (sendFileBlock_spec path).mono ?_
    rintro x s' ⟨pad, hp, hx⟩
    rw [if_pos rfl] at hx
    obtain ⟨rfl, rfl⟩ := hx
    exact ⟨rfl, _, linesOf_nil ▸ .eof pad hp, rfl⟩
  | cons rest hne ih =>
    rw [linesOf_cons hne]
    refine (sendFileBlock_spec path).mono ?_
    rintro x s' ⟨pad, hp, hx⟩
    rw [if_neg hne] at hx
    obtain ⟨rfl, rfl⟩ := hx
    refine (ih _).mono ?_
    rintro x s' ⟨rfl, w, hw, ho⟩
    exact ⟨rfl, _, .line pad hp hw, by rw [ho, List.append_assoc]⟩

/-- **`send_file_to_mapper`** puts the file on the wire and returns 0. -/
theorem sendFileToMapper_spec (job : Job) (caller : SendCaller) (s : Sending) (f : InputFile) : ∃ n,
    LoopWp (sendEnv job.mainToMapper.2 f) (sendFileBlock job caller f.path.bytes)
      (fun x s' => x = .ret 0 ∧ ∃ w, FileWire f w ∧ s'.out = s.out ++ w) n
      (sendFile job caller f.path.bytes) s := by
  refine ⟨(linesOf f.contents).length + 1 + 1, sendFile_spec.mono ?_⟩
  rintro x s' ⟨rfl, rfl⟩
  refine (sendFileLoop_spec f.path.bytes f.contents _).mono ?_
  rintro x s' ⟨rfl, w, hw, ho⟩
  exact ⟨rfl, _, .mk hw, by rw [ho, List.append_assoc]⟩

end Send

/-- A run of `send_file_to_mapper` on `f` writes `w`. -/
def Sends (job : Job) (caller : SendCaller) (f : InputFile) (w : Bytes) : Prop :=
  ∃ s' r, Loop (sendEnv job.mainToMapper.2 f) (sendFileBlock job caller f.path.bytes) ⟨[], []⟩
    (sendFile job caller f.path.bytes) s' r ∧ s'.out = w

/-- Runs of `send_file_to_mapper` on the files, one after the other, write `w`. -/
inductive SendsAll (job : Job) : List InputFile → Bytes → Prop
  | nil : SendsAll job [] []
  | cons {f : InputFile} {fs : List InputFile} {w ws : Bytes} (caller : SendCaller) (h : Sends job caller f w)
      (hs : SendsAll job fs ws) : SendsAll job (f :: fs) (w ++ ws)

theorem Sends.fileWire {job : Job} {caller : SendCaller} {f : InputFile} {w : Bytes} (h : Sends job caller f w) :
    FileWire f w := by
  obtain ⟨s', r, hl, rfl⟩ := h
  obtain ⟨n, hf⟩ := sendFileToMapper_spec job caller ⟨[], []⟩ f
  obtain ⟨-, w, hw, ho⟩ := hf.run hl
  rw [List.nil_append] at ho
  rwa [ho]

theorem exists_sends (job : Job) (caller : SendCaller) (f : InputFile) : ∃ w, Sends job caller f w := by
  obtain ⟨n, hf⟩ := sendFileToMapper_spec job caller ⟨[], []⟩ f
  obtain ⟨s', r, hl, -⟩ := hf.ends
  exact ⟨_, s', r, hl, rfl⟩

theorem SendsAll.fileWires {job : Job} {fs : List InputFile} {w : Bytes} (h : SendsAll job fs w) : FileWires fs w := by
  induction h with
  | nil => exact .nil
  | cons caller h _ ih => exact .cons h.fileWire ih

theorem exists_sendsAll (job : Job) : ∀ fs : List InputFile, ∃ w, SendsAll job fs w
  | [] => ⟨_, .nil⟩
  | f :: fs => by
    obtain ⟨w, hw⟩ := exists_sends job .input f
    obtain ⟨ws, hws⟩ := exists_sendsAll job fs
    exact ⟨_, .cons .input hw hws⟩

/-! ## Receiving lines -/

section Receive

variable {fd : Nat} {path : CString} {m : Nat} {ls : List Bytes} {fs : List InputFile} {w ws : Bytes}

/-- The receiver in a file: the lines `ls`, from number `m` on, and then the files `fs` are in the pipe. -/
structure InFile (path : CString) (m : Nat) (ls : List Bytes) (fs : List InputFile) (receiver : Receiver)
    (s : Bytes) : Prop where
  receiver : receiver = ⟨some (path.bytes ++ [0]), path.bytes.length, m, false⟩
  wire : ∃ w ws, LineWires ls w ∧ FileWires fs ws ∧ s = w ++ ws
  fits : ∀ l ∈ ls, l.length < ptrdiffMax
  count : m + ls.length < sizeT

/-- The receiver between two files: the files `fs` are in the pipe. -/
structure Between (fs : List InputFile) (receiver : Receiver) (s : Bytes) : Prop where
  receiver : receiver.fileFinished = true
  wire : FileWires fs s

/-- The header of a line, after its first byte. -/
theorem lineHeader_fields (b : UInt8) {pad junk : Bytes} (n : Nat) (hp : pad.length = 7) (hj : junk.length = 16)
    (hn : n < sizeT) (rest : Bytes) : (b :: pad ++ sizeBytes n ++ rest).take 16 = b :: pad ++ sizeBytes n ∧
      (b :: pad ++ sizeBytes n ++ rest).drop 16 = rest ∧
      fill junk (b :: pad ++ sizeBytes n) = b :: pad ++ sizeBytes n ∧
      leNat (((b :: pad ++ sizeBytes n).drop 8).take 8) = n := by
  have hlen : (b :: pad ++ sizeBytes n).length = 16 := by simp [hp, sizeBytes_length]
  refine ⟨List.take_left' hlen, List.drop_left' hlen, fill_full (by omega), ?_⟩
  have hd : (b :: pad ++ sizeBytes n).drop 8 = sizeBytes n := List.drop_left' (by simp [hp])
  rw [hd, List.take_of_length_le (by rw [sizeBytes_length]), leNat_sizeBytes hn]

/-- The content of a line. -/
theorem receiveLineContent_spec {l : Bytes} (hl : l.length < ptrdiffMax) (rest : Bytes) :
    (receiveLineContent fd l.length).Wp StreamEnv (fun r s' => r = some l ∧ s' = rest) (l ++ rest) := by
  have hmod : (l.length + 1) % sizeT = l.length + 1 := by
    apply Nat.mod_eq_of_lt
    simp only [ptrdiffMax, sizeT] at *
    omega
  rw [receiveLineContent, hmod]
  refine wp_malloc (by omega) fun block hb => ?_
  by_cases h0 : 0 < l.length
  · simp only [h0, if_true]
    refine wp_readN ?_
    simp [fill]
  · have hnil : l = [] := List.eq_nil_of_length_eq_zero (by omega)
    simp [hnil]

/-- What an iteration of `receive_line_from_main_fd` leads to in a file. -/
def AfterHeader (path : CString) (m : Nat) (fs : List InputFile) (ls : List Bytes) (x : RecvLine) (s : Bytes) : Prop :=
  match ls with
  | [] => ∃ r, x = .again r ∧ Between fs r s
  | l :: ls => ∃ r, x = .line ⟨path.bytes, m, l⟩ r ∧ InFile path (m + 1) ls fs r s

/-- **The header of a line and its content**, or the end of the file. -/
theorem receiveLineHeader_spec {receiver : Receiver} {s : Bytes} (h : InFile path m ls fs receiver s) :
    (receiveLineHeader fd receiver).Wp StreamEnv (AfterHeader path m fs ls) s := by
  obtain ⟨rfl, ⟨w, ws, hw, hws, rfl⟩, hfits, hcount⟩ := h
  refine wp_uninit fun junk hj => wp_readN ?_
  cases hw with
  | eof pad hp =>
    obtain ⟨ht, hd, hf, -⟩ := lineHeader_fields 1 0 hp hj (by decide) ws
    simp only [ht, hd, hf]
    exact ⟨_, rfl, rfl, hws⟩
  | @line l ls w pad hp hw =>
    have hl := hfits l List.mem_cons_self
    have hn : l.length < sizeT := by
      simp only [ptrdiffMax, sizeT] at *
      omega
    obtain ⟨ht, hd, hf, hle⟩ := lineHeader_fields 0 l.length hp hj hn (l ++ (w ++ ws))
    rw [List.append_assoc, List.append_assoc]
    simp only [ht, hd, hf, hle]
    have hpath : (path.bytes.length + 1) % sizeT = path.bytes.length + 1 := Nat.mod_eq_of_lt path.fits_size
    have hm : (m + 1) % sizeT = m + 1 := by
      apply Nat.mod_eq_of_lt
      rw [List.length_cons] at hcount
      omega
    have hp1 := path.fits
    rw [if_neg (by simp), hpath]
    refine wp_malloc (by omega) fun _ _ => ?_
    simp only
    rw [Prog.wp_bind]
    refine (receiveLineContent_spec hl (w ++ ws)).mono ?_
    rintro _ _ ⟨rfl, rfl⟩
    simp only [hm]
    refine ⟨_, by simp, rfl, ⟨w, ws, hw, hws, rfl⟩, fun l' hl' => hfits l' (List.mem_cons_of_mem _ hl'), ?_⟩
    rw [List.length_cons] at hcount
    omega

/-- The name of a file. -/
theorem nameHeader_fields (t : CString) (junk rest : Bytes) (hj : junk.length = 8) :
    (sizeBytes t.bytes.length ++ rest).take 8 = sizeBytes t.bytes.length ∧
      (sizeBytes t.bytes.length ++ rest).drop 8 = rest ∧
      leNat (fill junk (sizeBytes t.bytes.length)) = t.bytes.length := by
  have hlen := sizeBytes_length t.bytes.length
  refine ⟨List.take_left' hlen, List.drop_left' hlen, ?_⟩
  rw [fill_full (by omega), leNat_sizeBytes (Nat.lt_of_succ_lt t.fits_size)]

/-- A string in a block that has room for it and its NUL. -/
theorem fill_nul {block bs : Bytes} (h : block.length = bs.length + 1) :
    (fill block bs).set bs.length 0 = bs ++ [0] := by
  obtain ⟨b, hb⟩ : ∃ b, block.drop bs.length = [b] := List.length_eq_one_iff.mp (by simp [h])
  simp [fill, hb]

theorem InputFile.count (f : InputFile) : 1 + (linesOf f.contents).length < sizeT := by
  have h1 := length_linesOf f.contents
  have h2 := f.size
  simp only [ptrdiffMax, sizeT] at *
  omega

/-- An iteration between two files reads the name of the next and goes on in it. -/
theorem receiveLine_next {f : InputFile} {receiver : Receiver} {s : Bytes} (h : Between (f :: fs) receiver s) :
    (receiveLineFromMainFd fd receiver).Wp StreamEnv (AfterHeader f.path 1 fs (linesOf f.contents)) s := by
  obtain ⟨hr, hw⟩ := h
  cases hw with
  | @cons _ _ _ ws hf hws =>
    obtain ⟨hl⟩ := hf
    rename_i w
    rw [receiveLineFromMainFd, if_pos hr]
    refine wp_uninit fun junk hj => wp_readN ?_
    obtain ⟨ht, hd, hle⟩ := nameHeader_fields f.path junk (f.path.bytes ++ (w ++ ws)) hj
    rw [List.append_assoc, List.append_assoc, ht, hd]
    obtain ⟨b, bs, hb⟩ : ∃ b bs, sizeBytes f.path.bytes.length = b :: bs := ⟨_, _, rfl⟩
    rw [hb] at hle ⊢
    have hpath : (f.path.bytes.length + 1) % sizeT = f.path.bytes.length + 1 := Nat.mod_eq_of_lt f.path.fits_size
    have hfits := f.path.fits
    simp only [hle, hpath]
    refine wp_malloc (by omega) fun block hblock => wp_readN ?_
    simp only [List.take_left, List.drop_left, fill_nul hblock]
    exact receiveLineHeader_spec ⟨rfl, ⟨w, ws, hl, hws, rfl⟩, f.fits, f.count⟩

/-- An iteration at the end of the stream. -/
theorem receiveLine_eof {receiver : Receiver} {s : Bytes} (h : Between [] receiver s) :
    (receiveLineFromMainFd fd receiver).Wp StreamEnv (fun x s' => ∃ r, x = .eof r ∧ Between [] r s') s := by
  obtain ⟨hr, hw⟩ := h
  cases hw
  rw [receiveLineFromMainFd, if_pos hr]
  refine wp_uninit fun junk hj => wp_readN ?_
  exact ⟨_, rfl, hr, .nil⟩

/-! ## Calls of the receiver -/

/-- An iteration of the loop of `receive_line_from_main_fd`. -/
def lineBlock (fd : Nat) (receiver : Receiver) : IoProg (Except RecvLine Receiver) := do
  match ← receiveLineFromMainFd fd receiver with
  | .again r => return .ok r
  | x => return .error x

/-- The lines of the files, in order. -/
def allLines (fs : List InputFile) : List FileLine := fs.flatMap InputFile.lines

/-- The lines `ls` of a file from number `m` on. -/
def numbered (path : CString) (m : Nat) (ls : List Bytes) : List FileLine :=
  (ls.zipIdx m).map fun x => ⟨path.bytes, x.2, x.1⟩

/-- The receiver is in step with the pipe, and the lines `es` are still to come. -/
inductive InStep : List FileLine → Receiver → Bytes → Prop
  | between {fs : List InputFile} {r : Receiver} {s : Bytes} (h : Between fs r s) : InStep (allLines fs) r s
  | inFile {path : CString} {m : Nat} {ls : List Bytes} {fs : List InputFile} {r : Receiver} {s : Bytes}
      (h : InFile path m ls fs r s) : InStep (numbered path m ls ++ allLines fs) r s

/-- What the next call leads to when the lines `es` are still to come. -/
def Expected (es : List FileLine) (x : RecvLine) (s : Bytes) : Prop :=
  match es with
  | [] => ∃ r, x = .eof r ∧ InStep [] r s
  | e :: es => ∃ r, x = .line e r ∧ InStep es r s

/-- A call that is done with the header of a line, or goes on between two files. -/
theorem call_next {n : Nat} {receiver : Receiver} {s : Bytes}
    (hb : ∀ r s, Between fs r s → LoopWp StreamEnv (lineBlock fd) (Expected (allLines fs)) n (lineBlock fd r) s)
    (h : (receiveLineFromMainFd fd receiver).Wp StreamEnv (AfterHeader path m fs ls) s) :
    LoopWp StreamEnv (lineBlock fd) (Expected (numbered path m ls ++ allLines fs)) (n + 1) (lineBlock fd receiver) s := by
  rw [LoopWp, lineBlock, Prog.wp_bind]
  refine h.mono fun x s' hx => ?_
  cases ls with
  | nil =>
    obtain ⟨r, rfl, hr⟩ := hx
    exact hb r s' hr
  | cons l ls =>
    obtain ⟨r, rfl, hr⟩ := hx
    exact ⟨r, rfl, .inFile hr⟩

/-- The iterations of a call, from the head of the loop between two files. -/
theorem call_between : ∀ (fs : List InputFile) (receiver : Receiver) (s : Bytes), Between fs receiver s →
    LoopWp StreamEnv (lineBlock fd) (Expected (allLines fs)) (fs.length + 1) (lineBlock fd receiver) s
  | [], receiver, s, h => by
    rw [LoopWp, lineBlock, Prog.wp_bind]
    refine (receiveLine_eof h).mono ?_
    rintro x s' ⟨r, rfl, hr⟩
    exact ⟨r, rfl, .between hr⟩
  | _ :: fs, receiver, s, h => call_next (call_between fs) (receiveLine_next h)

/-- **A call in step** returns what is expected, and stays in step. -/
theorem call_inStep (fd : Nat) {es : List FileLine} {receiver : Receiver} {s : Bytes} (h : InStep es receiver s) :
    ∃ n, LoopWp StreamEnv (lineBlock fd) (Expected es) n (lineBlock fd receiver) s := by
  cases h with
  | between h => exact ⟨_, call_between _ _ _ h⟩
  | inFile h =>
    refine ⟨_, call_next (call_between _) ?_⟩
    rw [receiveLineFromMainFd, if_neg (by simp [h.receiver])]
    exact receiveLineHeader_spec h

end Receive

/-- What a call of `receive_line_from_main_fd` has returned, with the line when that is 0. -/
def RecvLine.result : RecvLine → Int × Option FileLine
  | .line l _ => (0, some l)
  | .eof _ => (1, none)
  | .again _ | .failed => (-1, none)

/-- The receiver for the next call. -/
def RecvLine.receiver? : RecvLine → Option Receiver
  | .line _ r | .eof r | .again r => some r
  | .failed => none

/-- The next calls of `receive_line_from_main_fd` return, in every run, and what they return is `xs`. -/
def Answers (fd : Nat) : List (Int × Option FileLine) → Receiver → Bytes → Prop
  | [], _, _ => True
  | x :: xs, receiver, s => ∃ n, LoopWp StreamEnv (lineBlock fd)
      (fun y s' => y.result = x ∧ ∀ r, y.receiver? = some r → Answers fd xs r s') n (lineBlock fd receiver) s

/-- What `k` calls return when the lines `es` are to come: the lines, and then 1 for ever. -/
def expected : List FileLine → Nat → List (Int × Option FileLine)
  | _, 0 => []
  | [], k + 1 => (1, none) :: expected [] k
  | e :: es, k + 1 => (0, some e) :: expected es k

theorem answers_expected {fd : Nat} : ∀ (k : Nat) {es : List FileLine} {receiver : Receiver} {s : Bytes},
    InStep es receiver s → Answers fd (expected es k) receiver s
  | 0, [], _, _, _ | 0, _ :: _, _, _, _ => trivial
  | k + 1, [], receiver, s, h => by
    obtain ⟨n, hn⟩ := call_inStep fd h
    refine ⟨n, hn.mono ?_⟩
    rintro x s' ⟨r, rfl, hr⟩
    refine ⟨rfl, fun r' he => ?_⟩
    cases he
    exact answers_expected k hr
  | k + 1, e :: es, receiver, s, h => by
    obtain ⟨n, hn⟩ := call_inStep fd h
    refine ⟨n, hn.mono ?_⟩
    rintro x s' ⟨r, rfl, hr⟩
    refine ⟨rfl, fun r' he => ?_⟩
    cases he
    exact answers_expected k hr

/-- **The round trip of the line stream.** Whatever `send_file_to_mapper` writes for these files, the calls of a fresh
receiver return their lines, and then 1; and it does write something. -/
theorem line_stream_round_trip (job : Job) (files : List InputFile) :
    (∃ w, SendsAll job files w) ∧ ∀ w, SendsAll job files w → ∀ fd k,
      Answers fd (expected (allLines files) k) mrMainReceiverInit w :=
  ⟨exists_sendsAll job files, fun _ hw _ k => answers_expected k (.between ⟨rfl, hw.fileWires⟩)⟩

/-- A file without a final newline and with an empty line, an empty file, and a file of one newline. -/
def threeFiles : List InputFile := [
  ⟨.a, [120, 10, 10, 0, 121], by decide, by decide⟩,
  ⟨⟨[98], by decide, by decide⟩, [], Obj.empty.fits, by decide⟩,
  ⟨⟨[99], by decide, by decide⟩, [10], by decide, by decide⟩]

theorem line_stream_round_trip_threeFiles :
    allLines threeFiles = [⟨[97], 1, [120]⟩, ⟨[97], 2, []⟩, ⟨[97], 3, [0, 121]⟩, ⟨[99], 1, []⟩] ∧
      ∃ w, SendsAll ⟨[], [], (3, 4), (5, 6), 1, 2⟩ threeFiles w ∧
        Answers 0 (expected (allLines threeFiles) 6) mrMainReceiverInit w := by
  obtain ⟨⟨w, hw⟩, h⟩ := line_stream_round_trip ⟨[], [], (3, 4), (5, 6), 1, 2⟩ threeFiles
  exact ⟨by decide, w, hw, h w hw 0 6⟩

end MrLib
