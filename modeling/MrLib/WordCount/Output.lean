import MrLib.Pipeline.Output
import MrLib.WordCount.User

/-!
# What `word_count` counts

The example program runs its functions in the pipeline and prints the output file. When `mr_start` has returned, each word
of the input has one record in the file, with the number of its occurrences (`wordCount_output`), and `print_results`
prints it once, with this number (`wordCount_prints`).
-/

namespace MrLib

open Conc Prog

/-! ## The records -/

/-- The words of the input. -/
def wordsIn (files : List InputFile) : List Bytes := (allLines files).flatMap fun l => wordsOf l.line

section Counts

variable {files : List InputFile} {ok : Sys → Nat → Bool}

theorem length_line_lt {l : FileLine} (h : l ∈ allLines files) : l.line.length < ptrdiffMax := by
  obtain ⟨f, -, hl⟩ := List.mem_flatMap.mp h
  obtain ⟨⟨line, n⟩, hx, rfl⟩ := List.mem_map.mp hl
  exact f.fits line (List.fst_mem_of_mem_zipIdx hx)

/-- What the mapper emits for the lines of the input. -/
theorem emits_wordsIn (hok : ∀ e i, ok e i = true) :
    ((allLines files).flatMap fun l => (wordCount ok (.mapper l)).emits).map Msg.fields =
      (wordsIn files).map (·, []) := by
  rw [wordsIn, List.map_flatMap, List.map_flatMap]
  refine List.flatMap_congr fun l hl => ?_
  exact (wordCountMapper_emits l (hok _) (length_line_lt hl)).2

theorem length_valuesOf (token : Bytes) (pairs : List Pair) :
    (valuesOf token pairs).length = (pairs.map Prod.fst).count token := by
  rw [valuesOf, List.length_map, ← List.countP_eq_length_filter, List.count_eq_countP, List.countP_map]
  exact List.countP_congr fun x _ => by simp

/-- What the reducer emits for the pairs it is called for. -/
theorem emits_counts (pairs : List Msg) :
    ((reducerCalls (pairs.map Msg.pair)).flatMap fun e => (wordCount ok e).emits).map Msg.fields =
      ((pairs.map Msg.pair).map Prod.fst).dedup.map fun w =>
        (w, sizeBytes (((pairs.map Msg.pair).map Prod.fst).count w)) := by
  rw [reducerCalls, List.map_flatMap, List.flatMap_map]
  refine (List.flatMap_congr fun token ht => ?_).trans List.map_eq_flatMap.symm
  obtain ⟨x, hx, rfl⟩ := List.mem_map.mp (List.mem_dedup.mp ht)
  obtain ⟨m, -, rfl⟩ := List.mem_map.mp hx
  have hm : (wordCount ok (.reducer m.pair.1 (valuesOf m.pair.1 (pairs.map Msg.pair)))).emits.map Msg.fields =
      [(m.pair.1, sizeBytes (valuesOf m.pair.1 (pairs.map Msg.pair)).length)] :=
    wordCountReducer_emits m.token.nulFree m.token.fits
  rw [hm, length_valuesOf]

end Counts

/-- **The output of `word_count`.** Each word of the input has one record, with the number of its occurrences. -/
theorem wordCount_output (P : Plant) (ok : Sys → Nat → Bool) (files : List InputFile)
    (hfiles : files.map (fun f => (f.path.bytes, f.contents)) = P.disk.input P.job.inputPath)
    (hmapper : P.mapper.Fits sizeofFileLine) (hreducer : P.reducer.Fits sizeofPtr) (hok : ∀ e i, ok e i = true)
    (hmany : (wordsIn files).length < 2 ^ 58) {s : Pipeline} (h : Reach (pipeline P) (CalmPipe P (wordCount ok)) s)
    {l : Leave} (hl : s.main.at_ = .inr l) :
    ∃ results : List Msg, OutputOf results s.main.files.file ∧
      (results.map Msg.fields).Perm ((wordsIn files).dedup.map fun w => (w, sizeBytes ((wordsIn files).count w))) := by
  have hemits : _ = (wordsIn files).map (·, []) := emits_wordsIn hok
  have hlen := congrArg List.length hemits
  rw [List.length_map, List.length_map] at hlen
  have hfails : (allLines files).countP (fun l => (wordCount ok (.mapper l)).result = -1) = 0 := by
    refine List.countP_eq_zero.mpr fun l hl => ?_
    rw [(wordCountMapper_emits l (hok _) (length_line_lt hl)).1]
    decide
  obtain ⟨pairs, results, hpairs, hresults, hout⟩ := pipeline_output_all P (wordCount ok) files hfiles hmapper hreducer
    (hlen ▸ hmany) (hfails ▸ P.mapper.threads_pos) h hl
  refine ⟨results, hout, (hresults.map _).trans ?_⟩
  have htokens : ((pairs.map Msg.pair).map Prod.fst).Perm (wordsIn files) := by
    have hp : (pairs.map Msg.pair).Perm ((wordsIn files).map (·, [])) := hemits ▸ hpairs.map Msg.fields
    simpa [Function.comp_def] using hp.map Prod.fst
  rw [emits_counts, List.map_congr_left fun w _ => by rw [htokens.count_eq w]]
  exact htokens.dedup.map _

/-! ## `print_results` -/

/-- A line that `print_results` prints. -/
inductive Printed
  /-- `"%s: %zu\n"` -/
  | count (token : Bytes) (n : Nat)
  /-- `"%s: [unknown data]\n"` -/
  | unknown (token : Bytes)
  deriving DecidableEq

/-- What an iteration of the loop of `print_results` does: it leaves the loop, does something undefined, or prints a line
and goes on at `pos`. -/
inductive PrintStep
  | ends
  | stuck
  | next (line : Printed) (pos : Nat)

/-- `fread(&x, sizeof(size_t), 1, f) == 1` -/
def freadSize (file : Bytes) (pos : Nat) : Option (Nat × Nat) :=
  if pos + 8 ≤ file.length then some (leNat ((file.drop pos).take 8), pos + 8) else none

/-- `fseek(f, n, SEEK_CUR)`: `n` is converted to `long`, and a position that no file has is refused. -/
def fseekCur (pos n : Nat) : Nat :=
  let target : Int := pos + (if n ≤ ptrdiffMax then (n : Int) else n - sizeT)
  if 0 ≤ target ∧ target ≤ ptrdiffMax then target.toNat else pos

/-- An iteration; `ok` says whether `malloc` finds memory for a block that is not too large. -/
def printResult (ok : Bool) (file : Bytes) (pos : Nat) : PrintStep :=
  match freadSize file pos with
  | none => .ends
  | some (tokenLen, pos) =>
    let size := (tokenLen + 1) % sizeT
    if ¬(size ≤ ptrdiffMax ∧ ok) then .ends
    else
      let token := (file.drop pos).take tokenLen
      if size < token.length then .stuck
      else if token.length ≠ tokenLen then .ends
      else match freadSize file (pos + tokenLen) with
        | none => .ends
        | some (resultSize, pos) =>
          if resultSize = 8 then
            match freadSize file pos with
            | none => .ends
            | some (count, pos) => .next (.count (cstr (token ++ [0])) count) pos
          else .next (.unknown (cstr (token ++ [0]))) (fseekCur pos resultSize)

/-- The loop from `pos` on: what is printed in at most `n` iterations. `none` if it does not end by then, or does something
undefined. -/
def printResults (ok : Nat → Bool) (file : Bytes) : Nat → Nat → Option (List Printed)
  | 0, _ => none
  | n + 1, pos =>
    match printResult (ok n) file pos with
    | .ends => some []
    | .stuck => none
    | .next line pos => (printResults ok file n pos).map (line :: ·)

/-- What is printed for a record. -/
def Msg.printed (m : Msg) : Printed :=
  if m.value.bytes.length = 8 then .count m.token.bytes (leNat m.value.bytes) else .unknown m.token.bytes

section Print

variable {done rest : Bytes} {m : Msg}

theorem freadSize_size (done rest : Bytes) {n : Nat} (hn : n < sizeT) :
    freadSize (done ++ (sizeBytes n ++ rest)) done.length = some (n, done.length + 8) := by
  have hlen := sizeBytes_length n
  rw [freadSize, if_pos (by simp [hlen]), List.drop_left, List.take_left' hlen, sizeBytes, leNat_leBytes _ _ hn]

/-- Forward in the file. -/
theorem fseekCur_forward {pos n : Nat} (h : pos + n ≤ ptrdiffMax) : fseekCur pos n = pos + n := by
  have hn : n ≤ ptrdiffMax := by omega
  simp only [fseekCur, if_pos hn]
  rw [if_pos (by omega)]
  omega

/-- **A record is printed.** -/
theorem printResult_record (h : (done ++ (m.record ++ rest)).length ≤ ptrdiffMax) :
    printResult true (done ++ (m.record ++ rest)) done.length = .next m.printed (done ++ m.record).length := by
  generalize hfile : done ++ (m.record ++ rest) = file at h ⊢
  have htl := m.token.fits_size
  have hsize : (m.token.bytes.length + 1) % sizeT = m.token.bytes.length + 1 := Nat.mod_eq_of_lt htl
  have hsmall : m.token.bytes.length + 1 ≤ ptrdiffMax := m.token.fits
  -- where the parts of the record are
  have h1 : file = done ++ (sizeBytes m.token.bytes.length ++ (m.token.bytes ++
      (sizeBytes m.value.bytes.length ++ (m.value.bytes ++ rest)))) := by
    simp [← hfile, Msg.record, sized, sizeBytes]
  have hfirst : freadSize file done.length = some (m.token.bytes.length, done.length + 8) := by
    rw [h1]
    exact freadSize_size _ _ (by omega)
  have htok : (file.drop (done.length + 8)).take m.token.bytes.length = m.token.bytes := by
    rw [h1, ← List.append_assoc, List.drop_left' (by simp [sizeBytes_length]), List.take_left]
  have hsecond : freadSize file (done.length + 8 + m.token.bytes.length) =
      some (m.value.bytes.length, done.length + 8 + m.token.bytes.length + 8) := by
    have := freadSize_size (done ++ (sizeBytes m.token.bytes.length ++ m.token.bytes)) (m.value.bytes ++ rest)
      m.value.fits_size
    simpa [h1, sizeBytes_length, Nat.add_assoc] using this
  have hvalue : (file.drop (done.length + 8 + m.token.bytes.length + 8)).take m.value.bytes.length = m.value.bytes := by
    have h2 : file = (done ++ (sizeBytes m.token.bytes.length ++ (m.token.bytes ++ sizeBytes m.value.bytes.length))) ++
        (m.value.bytes ++ rest) := by simp [h1]
    rw [h2, List.drop_left' (by simp [sizeBytes_length]; omega), List.take_left]
  have hlen : (done ++ m.record).length =
      done.length + 8 + m.token.bytes.length + 8 + m.value.bytes.length := by
    simp [Msg.record, sized]
    omega
  have hall : done.length + 8 + m.token.bytes.length + 8 + m.value.bytes.length ≤ file.length := by
    simp [h1, sizeBytes_length]
    omega
  have hstr : cstr (m.token.bytes ++ [0]) = m.token.bytes := cstr_token m.token
  simp only [printResult, hfirst, hsize, htok, hsecond, hstr]
  rw [if_neg (by simp [hsmall]), if_neg (by omega), if_neg (by simp), hlen]
  unfold Msg.printed
  split
  · rename_i h8
    rw [h8] at hvalue hall ⊢
    rw [freadSize, if_pos (by omega), hvalue]
  · rw [fseekCur_forward (by omega)]

/-- **`print_results` prints the records** of the output file, or the first of them when it has no more memory. -/
theorem printResults_records (ok : Nat → Bool) : ∀ (ms : List Msg) (done : Bytes) (n : Nat), ms.length < n →
    (done ++ ms.flatMap Msg.record).length ≤ ptrdiffMax →
      ∃ k, printResults ok (done ++ ms.flatMap Msg.record) n done.length = some ((ms.take k).map Msg.printed) ∧
        ((∀ i, ok i = true) → ms.length ≤ k)
  | ms, done, 0, hn, _ => absurd hn (Nat.not_lt_zero _)
  | [], done, n + 1, _, _ => by
    refine ⟨0, ?_, fun _ => Nat.le_refl _⟩
    have hend : freadSize (done ++ []) done.length = none := by simp [freadSize]
    simp only [List.flatMap_nil, printResults, printResult, hend]
    rfl
  | m :: ms, done, n + 1, hn, hlen => by
    rw [List.flatMap_cons] at hlen ⊢
    cases hok : ok n with
    | true =>
      obtain ⟨k, hk, hall⟩ := printResults_records ok ms (done ++ m.record) n (by simpa using hn) (by simpa using hlen)
      rw [List.append_assoc] at hk
      refine ⟨k + 1, ?_, fun h => Nat.succ_le_succ (hall h)⟩
      simp only [printResults, hok, printResult_record hlen, hk]
      rfl
    | false =>
      refine ⟨0, ?_, fun h => absurd (h n) (by simp [hok])⟩
      have hends : printResult false (done ++ (m.record ++ ms.flatMap Msg.record)) done.length = .ends := by
        unfold printResult
        split
        · rfl
        · simp
      simp only [printResults, hok, hends]
      rfl

end Print

/-- **What `word_count` prints**: each word of the input once, with the number of its occurrences. -/
theorem wordCount_prints (P : Plant) (ok : Sys → Nat → Bool) (files : List InputFile)
    (hfiles : files.map (fun f => (f.path.bytes, f.contents)) = P.disk.input P.job.inputPath)
    (hmapper : P.mapper.Fits sizeofFileLine) (hreducer : P.reducer.Fits sizeofPtr) (hok : ∀ e i, ok e i = true)
    (hmany : (wordsIn files).length < 2 ^ 58) {s : Pipeline} (h : Reach (pipeline P) (CalmPipe P (wordCount ok)) s)
    {l : Leave} (hl : s.main.at_ = .inr l) (hsize : s.main.files.file.length ≤ ptrdiffMax) :
    ∃ lines, (∀ n, (wordsIn files).length < n → printResults (fun _ => true) s.main.files.file n 0 = some lines) ∧
      lines.Perm ((wordsIn files).dedup.map fun w => .count w ((wordsIn files).count w)) := by
  obtain ⟨results, hout, hperm⟩ := wordCount_output P ok files hfiles hmapper hreducer hok hmany h hl
  obtain hfile := hout.records
  rw [hfile] at hsize ⊢
  have hlen : results.length ≤ (wordsIn files).length := by
    have := hperm.length_eq
    rw [List.length_map, List.length_map] at this
    rw [this]
    exact (List.dedup_sublist _).length_le
  refine ⟨results.map Msg.printed, fun n hn => ?_, ?_⟩
  · obtain ⟨k, hk, hall⟩ := printResults_records (fun _ => true) results [] n (by omega) (by simpa using hsize)
    rw [List.take_of_length_le (hall fun _ => rfl)] at hk
    simpa using hk
  · have hcounts := hperm.map fun x => if x.2.length = 8 then Printed.count x.1 (leNat x.2) else .unknown x.1
    rw [List.map_map, List.map_map] at hcounts
    refine hcounts.trans (List.Perm.of_eq (List.map_congr_left fun w _ => ?_))
    have hcount : (wordsIn files).count w < 256 ^ 8 := (List.count_le_length.trans_lt hmany).trans (by decide)
    simp only [Function.comp_apply, sizeBytes_length, if_true]
    rw [sizeBytes, leNat_leBytes _ _ hcount]

/-! ## A run -/

theorem objWords_fits : ([120, 32, 88, 10, 121, 32, 120] : Bytes).length ≤ ptrdiffMax := by decide

theorem linesWords_fit : ∀ l ∈ linesOf [120, 32, 88, 10, 121, 32, 120], l.length < ptrdiffMax := by decide

/-- A file with the lines `x X` and `y x`. -/
def fileWords : InputFile := ⟨.a, [120, 32, 88, 10, 121, 32, 120], objWords_fits, linesWords_fit⟩

def diskWords : Disk where
  find path := if path = [97] then some (.file ⟨[120, 32, 88, 10, 121, 32, 120], objWords_fits⟩) else none
  list _ := []

def plantWords : Plant := ⟨diskWords, lineJob, oneWorker, oneWorker, 64, lineJob_pids⟩

theorem reach_words : ∃ s, Reach (pipeline plantWords) (CalmPipe plantWords (wordCount fun _ _ => true)) s ∧
    (s.main.at_.isRight = true ∧ s.main.files.file.length ≤ ptrdiffMax) :=
  reach_pipe (fun s => s.main.at_.isRight = true ∧ s.main.files.file.length ≤ ptrdiffMax)
    (reducerTurns .controller 8 ++ mapperTurns .controller 16 ++ mainTurns 25 ++ mapperTurns (.worker 0) 9 ++
      mapperTurns .controller 9 ++ [.mapper (.wake .controller (.worker 0))] ++ mapperTurns .controller 8 ++
      mapperTurns (.worker 0) 1 ++ [.mapper (.wake (.worker 0) .controller)] ++ mapperTurns (.worker 0) 12 ++
      reducerTurns .controller 13 ++ mapperTurns .controller 1 ++ [.mapper (.wake .controller (.worker 0))] ++
      mapperTurns .controller 8 ++ mapperTurns (.worker 0) 21 ++ reducerTurns .controller 13 ++
      mapperTurns .controller 8 ++ reducerTurns .controller 14 ++ reducerTurns (.worker 0) 8 ++
      [.reducer (.wake (.worker 0) .controller)] ++ reducerTurns (.worker 0) 9 ++ reducerTurns .controller 1 ++
      [.reducer (.wake .controller (.worker 0))] ++ reducerTurns .controller 4 ++ mainTurns 9 ++
      reducerTurns (.worker 0) 18 ++ reducerTurns .controller 8 ++ mainTurns 20) (by decide +kernel)

/-- The words are `x`, three times in two lines, and `y`. -/
theorem wordCount_prints_words : ∃ s, Reach (pipeline plantWords) (CalmPipe plantWords (wordCount fun _ _ => true)) s ∧
    ∃ lines, printResults (fun _ => true) s.main.files.file 5 0 = some lines ∧
      lines.Perm [.count [120] 3, .count [121] 1] := by
  obtain ⟨s, hr, hl, hsize⟩ := reach_words
  obtain ⟨l, hl⟩ := Sum.isRight_iff.mp hl
  obtain ⟨lines, hlines, hperm⟩ := wordCount_prints plantWords _ [fileWords] rfl fits_oneWorker ⟨by decide, by decide⟩
    (fun _ _ => rfl) (by decide) hr hl hsize
  have hcounts : lines.Perm [.count [121] 1, .count [120] 3] := hperm
  exact ⟨s, hr, lines, hlines 5 (by decide), hcounts.trans (.swap _ _ _)⟩

end MrLib
