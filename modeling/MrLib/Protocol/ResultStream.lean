import MrLib.Lib.Records
import MrLib.Protocol.Output
import MrLib.Protocol.PairStream
import MrLib.Protocol.Send

/-!
# The stream of results and the output file

Any number of reducer workers call `reducer_emit`, each on a sequence of results of its own; the main process calls
`receive_output_from_reducer` on what they have written. The output file is a sequence of records, each the length of the
token, the token, the size of the result and the result.

`output_file`: the call returns 0, and the file read back as records is a shuffle of the sequences of the workers; another
sequence of results would be another file.
-/

namespace MrLib

open Conc Prog

/-! ## The file format -/

/-- A record of the output file. -/
def Msg.record (m : Msg) : Bytes := sized 8 m.token.bytes ++ sized 8 m.value.bytes

/-- Read a record off the front of the file: a token and a result. -/
def readRecord (file : Bytes) : Option ((Bytes × Bytes) × Bytes) :=
  match readSized 8 file with
  | none => none
  | some (token, rest) => (readSized 8 rest).map fun x => ((token, x.1), x.2)

/-- Read the whole file; `none` if bytes are left over. -/
def readRecords (file : Bytes) : Option (List (Bytes × Bytes)) := readAll readRecord file.length file

/-- The token and the result of a message. -/
def Msg.fields (m : Msg) : Bytes × Bytes := (m.token.bytes, m.value.bytes)

theorem undoes_record : Undoes readRecord Msg.record Msg.fields := by
  intro m rest
  have ht : m.token.bytes.length < 256 ^ 8 := Nat.lt_of_succ_lt m.token.fits_size
  have hv : m.value.bytes.length < 256 ^ 8 := m.value.fits_size
  rw [readRecord, Msg.record, List.append_assoc, readSized_sized ht]
  simp only
  rw [readSized_sized hv]
  rfl

theorem record_ne_nil (m : Msg) : m.record ≠ [] := by
  intro h
  have := congrArg List.length h
  simp [Msg.record, sized] at this

theorem fields_injective : Function.Injective Msg.fields := by
  rintro ⟨⟨t, _, _⟩, ⟨v, _⟩⟩ ⟨⟨t', _, _⟩, ⟨v', _⟩⟩ h
  simp only [Msg.fields, Prod.mk.injEq] at h
  obtain ⟨rfl, rfl⟩ := h
  rfl

theorem length_le_records (ms : List Msg) : ms.length ≤ (ms.flatMap Msg.record).length := by
  induction ms with
  | nil => simp
  | cons m ms ih =>
    have := List.length_pos_iff.mpr (record_ne_nil m)
    simp only [List.flatMap_cons, List.length_append, List.length_cons]
    omega

/-- **The file parses into the records it was made of**, with nothing left over. -/
theorem readRecords_records (ms : List Msg) : readRecords (ms.flatMap Msg.record) = some (ms.map Msg.fields) :=
  undoes_record.readAll record_ne_nil ms _ (length_le_records ms)

/-! ## Writing the file -/

/-- The main process while it receives the output: what is left in the pipe, and what is in the file. -/
structure Receiving where
  pipe : Bytes
  file : Bytes

/-- Calls that do not fail: the output file is at `path`, and those on the pipe are as in `StreamEnv`. -/
def OutputEnv (path : Bytes) (s : Receiving) (c : Io) (r : IoRet) (s' : Receiving) : Prop :=
  match c with
  | .sys (.fopen .output filePath) => filePath = path ∧ r = .sys .ok ∧ s' = { s with file := [] }
  | .sys (.fwrite bs) => r = .sys .ok ∧ s' = { s with file := s.file ++ bs }
  | .sys (.fclose .output) => r = .sys .ok ∧ s' = s
  | c => StreamEnv s.pipe c r s'.pipe ∧ s'.file = s.file

variable {path : Bytes} {s : Receiving} {α : Type}

/-- A program that only reads the pipe leaves the file alone. -/
theorem wp_output {p : IoProg α} {Q : α → Bytes → Prop} {s : Receiving} (h : p.Wp StreamEnv Q s.pipe) :
    p.Wp (OutputEnv path) (fun a s' => Q a s'.pipe ∧ s'.file = s.file) s := by
  induction p generalizing s with
  | ret a => exact ⟨h, rfl⟩
  | call c k ih =>
    obtain ⟨⟨r, t, he⟩, hk⟩ := h
    have henv : ∀ r s', OutputEnv path s c r s' ↔ StreamEnv s.pipe c r s'.pipe ∧ s'.file = s.file := by
      intro r' s'
      unfold OutputEnv
      split
      · exact he.elim
      · exact he.elim
      · exact he.elim
      · exact Iff.rfl
    refine ⟨⟨r, ⟨t, s.file⟩, (henv _ _).mpr ⟨he, rfl⟩⟩, fun r s' he => ?_⟩
    obtain ⟨he, hf⟩ := (henv _ _).mp he
    exact (ih r (hk r s'.pipe he)).mono fun a s'' hq => ⟨hq.1, hq.2.trans hf⟩

variable {rest file : Bytes} {job : Job}

/-- A checked call on the output file. -/
theorem wp_outputInt {e : Sys} {Q : Int → Receiving → Prop} {s' : Receiving}
    (he : ∀ r t, OutputEnv path s (.sys e) r t ↔ r = .sys .ok ∧ t = s') (h : Q 0 s') :
    (sysInt e).Wp (OutputEnv path) Q s := by
  refine ⟨⟨_, _, (he _ _).mpr ⟨rfl, rfl⟩⟩, fun r t hr => ?_⟩
  obtain ⟨rfl, rfl⟩ := (he _ _).mp hr
  exact h

/-- A call that only reads the pipe, and what follows it. -/
theorem wp_pipe {β : Type} {p : IoProg β} {k : β → Fn α} {P : β → Bytes → Prop} {Q : Except Leave α → Receiving → Prop}
    (hp : p.Wp StreamEnv P s.pipe) (hk : ∀ b t, P b t → (k b).run.Wp (OutputEnv path) Q ⟨t, s.file⟩) :
    (liftM p >>= k : Fn α).run.Wp (OutputEnv path) Q s := by
  refine wp_lift ((wp_output hp).mono ?_)
  rintro b ⟨t, f⟩ ⟨hb, rfl⟩
  exact hk b t hb

/-- The token of a record. -/
theorem receiveRecordToken_spec {fd : Nat} (t : CString) (rest file : Bytes) :
    (receiveRecordToken fd t.bytes.length).run.Wp (OutputEnv path)
      (fun x s' => x = .ok () ∧ s' = ⟨rest, file ++ t.bytes⟩) ⟨t.bytes ++ rest, file⟩ := by
  have hfits := t.fits
  rw [receiveRecordToken]
  by_cases hl : 0 < t.bytes.length
  · simp only [hl, if_true]
    refine wp_pipe (malloc_spec (by omega)) ?_
    rintro _ _ ⟨⟨block, rfl, hb⟩, rfl⟩
    refine wp_pipe (readN_spec _ _ _) ?_
    rintro _ _ ⟨rfl, rfl⟩
    refine wp_check_last (wp_outputInt (fun _ _ => Iff.rfl) ⟨by decide, rfl, ?_⟩)
    simp [fill_full (show block.length ≤ t.bytes.length by omega)]
  · have hnil : t.bytes = [] := List.eq_nil_of_length_eq_zero (by omega)
    simp only [hl, if_false]
    exact ⟨rfl, by simp [hnil]⟩

/-- The result of a record. -/
theorem receiveRecordResult_spec {fd : Nat} (v : Obj) (rest file : Bytes) :
    (receiveRecordResult fd v.bytes.length).run.Wp (OutputEnv path)
      (fun x s' => x = .ok () ∧ s' = ⟨rest, file ++ v.bytes⟩) ⟨v.bytes ++ rest, file⟩ := by
  rw [receiveRecordResult]
  refine wp_pipe (malloc_spec v.fits) ?_
  rintro _ _ ⟨⟨block, rfl, hb⟩, rfl⟩
  by_cases hl : 0 < v.bytes.length
  · simp only [hl, if_true]
    refine wp_pipe (readN_spec _ _ _) ?_
    rintro _ _ ⟨rfl, rfl⟩
    refine wp_check_last (wp_outputInt (fun _ _ => Iff.rfl) ⟨by decide, rfl, ?_⟩)
    simp [fill_full (show block.length ≤ v.bytes.length by omega)]
  · have hnil : v.bytes = [] := List.eq_nil_of_length_eq_zero (by omega)
    simp only [hl, if_false]
    exact ⟨rfl, by simp [hnil]⟩

/-- One iteration on a message in the pipe: its record is in the file, and its header in the variable. -/
theorem receiveRecord_wire {header : Bytes} (hh : header.length = 16) (m : Msg) (rest file : Bytes) :
    (receiveRecord job header).run.Wp (OutputEnv path)
      (fun x s' => x = .ok (.record job (msgHeader m)) ∧ s' = ⟨rest, file ++ m.record⟩) ⟨m.wire ++ rest, file⟩ := by
  refine wp_pipe (readN_spec _ _ _) ?_
  rintro _ _ ⟨rfl, rfl⟩
  obtain ⟨ht, hd, h1, h2⟩ := msgHeader_fields m rest hh
  have hfill : fill header (msgHeader m) = msgHeader m := fill_full (by rw [hh, length_msgHeader])
  rw [ht, hd]
  obtain ⟨b, bs, hb⟩ : ∃ b bs, msgHeader m = b :: bs := ⟨_, _, rfl⟩
  rw [hb] at h1 h2 hfill ⊢
  simp only [h1, h2]
  refine wp_check (wp_outputInt (fun _ _ => Iff.rfl) ⟨by decide, wp_fn_bind ?_⟩)
  refine (receiveRecordToken_spec m.token _ _).mono ?_
  rintro _ _ ⟨rfl, rfl⟩
  refine wp_check (wp_outputInt (fun _ _ => Iff.rfl) ⟨by decide, wp_fn_bind ?_⟩)
  refine (receiveRecordResult_spec m.value _ _).mono ?_
  rintro _ _ ⟨rfl, rfl⟩
  exact ⟨by rw [hfill], by simp [Msg.record, sized, sizeBytes]⟩

/-- A log line. -/
theorem wp_outputLog {level : Level} {format : String} {Q : Int → Receiving → Prop} (h : Q 0 s) :
    (mrLog level format).Wp (OutputEnv path) Q s := by
  refine (wp_output (log_spec level format)).mono ?_
  rintro _ ⟨t, f⟩ ⟨⟨rfl, rfl⟩, rfl⟩
  exact h

/-- The iteration at the end of the pipe. -/
theorem receiveRecord_eof (header file : Bytes) : (receiveRecord job header).run.Wp (OutputEnv path)
    (fun x s' => x = .error (.ret 0) ∧ s'.file = file) ⟨[], file⟩ := by
  refine wp_pipe (readN_spec _ _ _) ?_
  rintro _ _ ⟨rfl, rfl⟩
  refine wp_fn_bind ?_
  refine wp_check (wp_outputInt (fun _ _ => Iff.rfl) ⟨by decide, ?_⟩)
  exact wp_check_last (wp_outputLog ⟨by decide, rfl, rfl⟩)

/-- `receive_output_from_reducer`, up to its loop. -/
def receiveOutput (job : Job) : IoProg (Except Leave MainPhase) := (receiveOutputFromReducer job).run

/-- `receive_output_from_reducer`, from the head of its loop to the next. -/
def receiveOutputBlock : MainPhase → IoProg (Except Leave MainPhase)
  | .record job header => (receiveRecord job header).run
  -- not a phase of this function
  | .line job caller filePath => (sendFileLoop job caller filePath).run

/-- The first piece opens the file, and the header may hold anything. -/
theorem receiveOutput_spec (job : Job) (pipe file : Bytes) : (receiveOutput job).Wp (OutputEnv job.outputPath)
    (fun x s' => (∃ header, header.length = 16 ∧ x = .ok (.record job header)) ∧ s' = ⟨pipe, []⟩) ⟨pipe, file⟩ := by
  refine wp_check (wp_outputLog ⟨by decide, ?_⟩)
  refine wp_check (wp_outputInt (fun _ _ => and_iff_right rfl) ⟨by decide, ?_⟩)
  refine wp_pipe (uninit_spec 16) ?_
  rintro header _ ⟨hh, rfl⟩
  exact ⟨⟨header, hh, rfl⟩, rfl⟩

/-- The loop, on messages in the pipe. -/
theorem receiveRecords_wires {T : Type} : ∀ (log : List (T × Msg)) {header : Bytes} (_ : header.length = 16)
    (file : Bytes), LoopWp (OutputEnv path) receiveOutputBlock
      (fun x s' => x = .ret 0 ∧ s'.file = file ++ (log.map Prod.snd).flatMap Msg.record) (log.length + 1)
      (receiveOutputBlock (.record job header)) ⟨wires log, file⟩
  | [], header, _, file => by
    refine (receiveRecord_eof header file).mono ?_
    rintro _ s' ⟨rfl, hf⟩
    exact ⟨rfl, by simp [hf]⟩
  | x :: log, header, hh, file => by
    refine (receiveRecord_wire hh x.2 (wires log) file).mono ?_
    rintro _ _ ⟨rfl, rfl⟩
    refine (receiveRecords_wires log (length_msgHeader x.2) _).mono ?_
    rintro _ s' ⟨rfl, hf⟩
    exact ⟨rfl, by simp [hf]⟩

/-- **`receive_output_from_reducer`** on messages in the pipe returns 0 and leaves their records in the file. -/
theorem receiveOutput_wires {T : Type} (job : Job) (log : List (T × Msg)) (file : Bytes) : ∃ n,
    LoopWp (OutputEnv job.outputPath) receiveOutputBlock
      (fun x s' => x = .ret 0 ∧ s'.file = (log.map Prod.snd).flatMap Msg.record) n
      (receiveOutput job) ⟨wires log, file⟩ := by
  refine ⟨log.length + 1 + 1, (receiveOutput_spec job _ file).mono ?_⟩
  rintro _ _ ⟨⟨header, hh, rfl⟩, rfl⟩
  exact receiveRecords_wires log hh []

/-! ## Both sides -/

/-- What `receive_output_from_reducer` has left in the file when the results are `ms`: their records, which read back as
these results, and which no other sequence of results would have given. -/
structure OutputOf (ms : List Msg) (file : Bytes) : Prop where
  records : file = ms.flatMap Msg.record
  parses : readRecords file = some (ms.map Msg.fields)
  distinct : ∀ ms' : List Msg, ms'.flatMap Msg.record = file → ms' = ms

theorem outputOf_records (ms : List Msg) : OutputOf ms (ms.flatMap Msg.record) :=
  ⟨rfl, readRecords_records ms, fun _ h => undoes_record.injective record_ne_nil fields_injective h⟩

variable {T : Type} [DecidableEq T]

/-- **The output file.** When the workers have returned, `receive_output_from_reducer` on what they wrote returns 0, in
every run, and the file is the output of a shuffle of their results. -/
theorem output_file {ms : T → List Msg} {s : PState T UInt8 0 Unit (List Msg)}
    (h : Reach (emitters ms) (fun s a => emitsOk (emitter T) s a = true) s) (hd : ∀ t, (s.loc t).isDone = true) :
    ∃ log, Shuffle ms log ∧ s.mem.stdout.sent = log.length ∧ ∀ job old, ∃ n,
      LoopWp (OutputEnv job.outputPath) receiveOutputBlock (fun x s' => x = .ret 0 ∧ OutputOf (log.map Prod.snd) s'.file) n
        (receiveOutput job) ⟨s.mem.stdout.out, old⟩ := by
  obtain ⟨log, hsh, hsent, hout⟩ := emitters_done h hd
  refine ⟨log, hsh, hsent, fun job old => ?_⟩
  obtain ⟨n, hn⟩ := receiveOutput_wires job log old
  rw [hout]
  refine ⟨n, hn.mono ?_⟩
  rintro x s' ⟨rfl, hf⟩
  exact ⟨rfl, hf ▸ outputOf_records _⟩

theorem output_file_twoEmits : ∃ (s : PState (Fin 2) UInt8 0 Unit (List Msg)) (log : List (Fin 2 × Msg)),
    Reach (emitters twoPairs) (fun s a => emitsOk (emitter (Fin 2)) s a = true) s ∧ Shuffle twoPairs log ∧
      log.length = 2 ∧ ∃ s' x, Loop (OutputEnv []) receiveOutputBlock ⟨s.mem.stdout.out, []⟩
        (receiveOutput ⟨[], [], (3, 4), (5, 6), 1, 2⟩) s' x ∧ x = .ret 0 ∧
          OutputOf (log.map Prod.snd) s'.file := by
  obtain ⟨s, hr, hd, hs⟩ := reach_of_runP (T := emitters twoPairs) (P := emitsOk (emitter (Fin 2)))
    (fun s => (∀ t, (s.loc t).isDone = true) ∧ s.mem.stdout.sent = 2) twoEmits (by decide)
  obtain ⟨log, hsh, hlen, hout⟩ := output_file hr hd
  obtain ⟨n, hn⟩ := hout ⟨[], [], (3, 4), (5, 6), 1, 2⟩ []
  obtain ⟨s', x, hl, hx⟩ := hn.ends
  exact ⟨s, log, hr, hsh, hlen.symm.trans hs, s', x, hl, hx⟩

end MrLib
