import MrLib.Core.Safe
import MrLib.Protocol.LineStream

/-!
# Directory input

`send_files_in_directory_to_mapper` on a directory with any entries, in an environment where every call may fail and
`stat` and `fopen` find what there is at the path they are given. The code builds each path in a buffer of `PATH_MAX`
bytes (`fullPath`), so that of a long path it is a shorter one that is asked for and sent, at which there may be
anything.

`directory_input`: when the function returns 0, the stream carries the files of the directory under their own names, in
the order of `alphasort`, exactly if no entry has such a path, except directories whose shortened paths are directories.
-/

namespace MrLib

open Conc Prog

/-! ## Directories -/

/-- What there is at a path. A file has at most `PTRDIFF_MAX` bytes. -/
inductive PathNode
  | dir
  | file (contents : Obj)
  deriving DecidableEq

/-- An entry of a directory. -/
structure Entry where
  name : CString
  node : PathNode
  short : name.bytes.length ≤ 255
  deriving DecidableEq

/-- The entry is `.` or `..`. -/
def Entry.dots (e : Entry) : Bool := e.name.bytes = [46] ∨ e.name.bytes = [46, 46]

/-- The path of an entry. -/
def Entry.path (dirPath : CString) (e : Entry) : Bytes := dirPath.bytes ++ 47 :: e.name.bytes

theorem length_path {path : CString} {e : Entry} :
    (e.path path).length = path.bytes.length + 1 + e.name.bytes.length := by
  rw [Entry.path, List.length_append, List.length_cons]
  omega

/-- A directory, and what there is at any other path. -/
structure Directory where
  path : CString
  entries : List Entry
  distinct : (entries.map fun e => e.name.bytes).Nodup
  /-- What `stat` and `fopen` find. -/
  find : Bytes → Option PathNode
  /-- An entry is found at its own path, if that is not too long for the system. -/
  own : ∀ e ∈ entries, (e.path path).length < pathMax → find (e.path path) = some e.node

variable {D : Directory}

/-- The file that the stream should carry for an entry: its path and its contents. -/
def Directory.file? (D : Directory) (e : Entry) : Option (Bytes × Bytes) :=
  if e.dots then none
  else match e.node with
    | .dir => none
    | .file c => some (e.path D.path, c.bytes)

/-- The path that the code builds for an entry names it, or it is a directory and so is what that path names. -/
def Directory.Named (D : Directory) : Prop :=
  ∀ e ∈ D.entries, e.dots = false →
    (e.path D.path).length < pathMax ∨ e.node = .dir ∧ D.find (fullPath D.path.bytes e.name.bytes) = some .dir

/-! ## The stream -/

/-- Files on the wire, one after the other: their paths and their contents. -/
inductive NamedWires : List (Bytes × Bytes) → Bytes → Prop
  | nil : NamedWires [] []
  | cons {path contents w ws : Bytes} {fs : List (Bytes × Bytes)} (h : LineWires (linesOf contents) w)
      (hs : NamedWires fs ws) :
      NamedWires ((path, contents) :: fs) (sizeBytes path.length ++ path ++ w ++ ws)

theorem NamedWires.ne_nil {f : Bytes × Bytes} {fs : List (Bytes × Bytes)} {w : Bytes} (h : NamedWires (f :: fs) w) :
    w ≠ [] := by
  cases h with
  | @cons path =>
    intro he
    have := congrArg List.length he
    simp [sizeBytes_length] at this

/-- They are the files that the receiver is sent. -/
theorem namedWires_of_fileWires {fs : List InputFile} {w : Bytes} (h : FileWires fs w) :
    NamedWires (fs.map fun f => (f.path.bytes, f.contents)) w := by
  induction h with
  | nil => exact .nil
  | cons h _ ih =>
    obtain ⟨hl⟩ := h
    exact .cons hl ih

theorem NamedWires.snoc {fs : List (Bytes × Bytes)} {ws w path contents : Bytes} (hs : NamedWires fs ws)
    (h : LineWires (linesOf contents) w) :
    NamedWires (fs ++ [(path, contents)]) (ws ++ (sizeBytes path.length ++ path ++ w)) := by
  induction hs with
  | nil => simpa using NamedWires.cons h .nil
  | cons h' _ ih =>
    rw [List.append_assoc]
    exact .cons h' ih

/-- No line is longer than its file. -/
theorem length_le_of_mem_linesOf (contents : Bytes) : ∀ l ∈ linesOf contents, l.length ≤ contents.length := by
  induction contents using line_induction with
  | nil => simp [linesOf_nil]
  | cons rest hne ih =>
    rw [linesOf_cons hne]
    intro l hl
    rcases List.mem_cons.mp hl with rfl | hl
    · rcases line_cases rest with hn | ⟨l, d, hn, rfl⟩
      · rw [(nextLine_last hn).1, dropNewline_last hn]
      · rw [(nextLine_newline d hn).1, dropNewline_newline]
        simp
    · have := ih l hl
      have := length_afterLine hne
      omega

theorem sizeBytes_inj {m n : Nat} (hm : m < sizeT) (hn : n < sizeT) (h : sizeBytes m = sizeBytes n) : m = n := by
  rw [← leNat_sizeBytes hm, h, leNat_sizeBytes hn]

/-- The lines of a file can be told from the wire, and where they end. -/
theorem LineWires.unique {ls ls' : List Bytes} {w w' : Bytes} (h : LineWires ls w) (h' : LineWires ls' w')
    (hl : ∀ l ∈ ls, l.length < sizeT) (hl' : ∀ l ∈ ls', l.length < sizeT) {r r' : Bytes} (he : w ++ r = w' ++ r') :
    ls = ls' ∧ r = r' := by
  induction h generalizing ls' w' with
  | eof pad hp =>
    cases h' with
    | eof pad' hp' =>
      refine ⟨rfl, List.append_inj_right he ?_⟩
      simp [hp, hp']
    | line pad' hp' h' => simp at he
  | @line l ls w pad hp _ ih =>
    cases h' with
    | eof pad' hp' => simp at he
    | @line l' ls' w' pad' hp' h' =>
      simp only [List.append_assoc] at he
      have hlen : (0 :: pad ++ sizeBytes l.length).length = (0 :: pad' ++ sizeBytes l'.length).length := by
        simp [hp, hp', sizeBytes_length]
      simp only [← List.append_assoc (0 :: pad), ← List.append_assoc (0 :: pad')] at he
      obtain ⟨hh, ht⟩ := List.append_inj he hlen
      have hsize := List.append_inj_right hh (by simp [hp, hp'])
      have hll : l.length = l'.length := sizeBytes_inj (hl l List.mem_cons_self) (hl' l' List.mem_cons_self) hsize
      obtain ⟨rfl, hrest⟩ := List.append_inj ht hll
      obtain ⟨rfl, rfl⟩ := ih h' (fun x hx => hl x (List.mem_cons_of_mem _ hx))
        (fun x hx => hl' x (List.mem_cons_of_mem _ hx)) hrest
      exact ⟨rfl, rfl⟩

/-- A file whose path and contents have lengths that a header can carry. -/
def Carried (f : Bytes × Bytes) : Prop := f.1.length < sizeT ∧ f.2.length < sizeT

/-- **The paths can be told from the stream.** -/
theorem NamedWires.paths {fs fs' : List (Bytes × Bytes)} {w : Bytes} (h : NamedWires fs w) (h' : NamedWires fs' w)
    (hf : ∀ f ∈ fs, Carried f) (hf' : ∀ f ∈ fs', Carried f) : fs.map Prod.fst = fs'.map Prod.fst := by
  have fits : ∀ {path contents : Bytes} {fs : List (Bytes × Bytes)}, (∀ f ∈ (path, contents) :: fs, Carried f) →
      path.length < sizeT ∧ ∀ l ∈ linesOf contents, l.length < sizeT := by
    intro path contents fs hfs
    obtain ⟨hp, hc⟩ := hfs _ List.mem_cons_self
    exact ⟨hp, fun l hl => (length_le_of_mem_linesOf contents l hl).trans_lt hc⟩
  generalize he : w = w' at h'
  induction h generalizing fs' w' with
  | nil =>
    cases h' with
    | nil => rfl
    | cons hl hs => exact absurd he.symm (NamedWires.cons hl hs).ne_nil
  | @cons path contents w ws fs hl hs ih =>
    cases h' with
    | nil => exact absurd he (NamedWires.cons hl hs).ne_nil
    | @cons path' contents' w' ws' fs' hl' hs' =>
      obtain ⟨hp, hc⟩ := fits hf
      obtain ⟨hp', hc'⟩ := fits hf'
      simp only [List.append_assoc] at he
      obtain ⟨hn, ht⟩ := List.append_inj he (by simp [sizeBytes_length])
      obtain ⟨rfl, hw⟩ := List.append_inj ht (sizeBytes_inj hp hp' hn)
      obtain ⟨-, rfl⟩ := hl.unique hl' hc hc' hw
      have := ih (fun f h => hf f (List.mem_cons_of_mem _ h)) (fun f h => hf' f (List.mem_cons_of_mem _ h)) _ rfl hs'
      rw [List.map_cons, List.map_cons, this]

/-! ## The runs -/

/-- The main process while it sends a directory: what `getline` has not read of the file, whether the error indicator of
the file is set, and what the pipe has taken. -/
structure Scanning where
  rest : Bytes
  error : Bool
  out : Bytes

def Scanning.start : Scanning := ⟨[], false, []⟩

/-- The calls that leave the process. Each may fail; `getline` fails at the end of the file, or it sets the error
indicator. `scandir` gives the names in the order of `alphasort`. -/
def scanSys (D : Directory) (alphasort : Bytes → Bytes → Prop) (writeFd : Nat) (s : Scanning) (e : Sys) (r : Ret Val)
    (s' : Scanning) : Prop :=
  match e with
  | .stat path => s' = s ∧ (r = .fail ∨ ∃ node, D.find path = some node ∧ r = .val (.isDir (node = .dir)))
  | .scandir path => s' = s ∧ (r = .fail ∨ path = D.path.bytes ∧ ∃ es : List Entry, es.Perm D.entries ∧
      (es.map fun e => e.name.bytes).Pairwise alphasort ∧ r = .val (.names (es.map fun e => e.name.bytes)))
  | .fopen _ path => r = .fail ∧ s' = s ∨ ∃ c, D.find path = some (.file c) ∧ r = .ok ∧ s' = ⟨c.bytes, false, s.out⟩
  | .getline => s.rest = [] ∧ r = .fail ∧ s' = s ∨ r = .fail ∧ s' = { s with error := true } ∨
      s.rest ≠ [] ∧ r = .val (.bytes (nextLine s.rest)) ∧ s' = { s with rest := afterLine s.rest }
  | .ferror _ => r = (if s.error then .fail else .ok) ∧ s' = s
  | .fclose _ => (r = .ok ∨ r = .fail) ∧ s' = s
  | .uninit n => (∃ block : Bytes, block.length = n ∧ r = .val (.bytes block)) ∧ s' = s
  | .write fd bs => fd = writeFd ∧
      (r = .fail ∧ s' = s ∨ ∃ k, k ≤ bs.length ∧ r = .val (.count k) ∧ s' = { s with out := s.out ++ bs.take k })
  | _ => False

/-- The same for the calls of sequential code. -/
def scanEnv (D : Directory) (alphasort : Bytes → Bytes → Prop) (writeFd : Nat) (s : Scanning) (c : Io) (r : IoRet)
    (s' : Scanning) : Prop :=
  match c with
  | .log _ _ => (r = .int 0 ∨ r = .int (-1)) ∧ s' = s
  | .writeN fd bs => ∃ n : Int, r = .int n ∧
      Loop (scanSys D alphasort writeFd) (writeNBlock fd bs.length) s (writeNBlock fd bs.length bs) s' n
  | .sys e => ∃ v, r = .sys v ∧ scanSys D alphasort writeFd s e v s'

/-- The code of `send_files_in_directory_to_mapper` from the head of the loop of `send_file_to_mapper` to the next. -/
def sendFilesBlock : MainPhase → Fn MainPhase
  | .line job (.directory dirPath entries) filePath =>
    (sendFileLoop job (.directory dirPath entries) filePath).within (sentFile job dirPath entries)
  -- not phases of this function
  | .line job .input filePath => sendFileLoop job .input filePath
  | .record job header => receiveRecord job header

/-- It is what `send_input_to_mapper` runs. -/
theorem within_directory (job : Job) (dirPath : Bytes) (entries : List Bytes) (filePath : Bytes) :
    SendCaller.within job (sendFileLoop job (.directory dirPath entries) filePath) (.directory dirPath entries) =
      (sendFilesBlock (.line job (.directory dirPath entries) filePath)).within sentInput := rfl

/-- `send_files_in_directory_to_mapper` has returned 0, and has written `w`. -/
def DirectorySent (D : Directory) (alphasort : Bytes → Bytes → Prop) (job : Job) (w : Bytes) : Prop :=
  ∃ s, Loop (scanEnv D alphasort job.mainToMapper.2) (fun ph => (sendFilesBlock ph).run) .start
    (sendFilesInDirectoryToMapper job D.path.bytes).run s (.ret 0) ∧ s.out = w

/-! ### Calls -/

section Calls

variable {alphasort : Bytes → Bytes → Prop} {writeFd : Nat} {s : Scanning} {α : Type}
  {Q : Except Leave α → Scanning → Prop} {command : Fn Unit} {k : Fn α}

/-- Nothing is claimed of a function that does not return 0. -/
def Harmless (Q : Except Leave α → Scanning → Prop) : Prop := ∀ s, Q (.error (.ret (-1))) s

theorem safe_harmless (hc : Goes (fun _ => True) command) (hQ : Harmless Q) :
    Safe (scanEnv D alphasort writeFd) (fun _ => True) command.run (Fails Q) s := by
  have any : ∀ {β : Type} {R : β → Prop} {P : β → Scanning → Prop} (p : IoProg β), Calls (fun _ => True) R p →
      (∀ b s, R b → P b s) → ∀ s, Safe (scanEnv D alphasort writeFd) (fun _ => True) p P s := by
    intro β R P p hp hP
    induction p with
    | ret b => exact fun s => ⟨trivial, hP b s hp⟩
    | call c k ih => exact fun s => ⟨trivial, fun r s' _ => ih r (hp.2 r) s'⟩
  refine any _ hc (fun x s hx => ?_) s
  obtain rfl := hx
  exact hQ s

theorem safe_scan_sys {e : Sys} {Q : Int → Scanning → Prop} (hfail : ∀ s', Q (-1) s')
    (hok : ∀ v s', scanSys D alphasort writeFd s e v s' → v ≠ .fail → Q 0 s') :
    Safe (scanEnv D alphasort writeFd) (fun _ => True) (sysInt e) Q s := by
  refine ⟨trivial, ?_⟩
  rintro r s' ⟨v, rfl, hv⟩
  cases v with
  | fail => exact ⟨trivial, hfail _⟩
  | _ => exact ⟨trivial, hok _ _ hv nofun⟩

/-- A checked call that leaves the process. -/
theorem safe_scan_check {e : Sys} (hc : Goes (fun _ => True) command) (hQ : Harmless Q)
    (hk : ∀ v s', scanSys D alphasort writeFd s e v s' → v ≠ .fail →
      Safe (scanEnv D alphasort writeFd) (fun _ => True) k.run Q s') :
    Safe (scanEnv D alphasort writeFd) (fun _ => True) (do syscallRetCheck (← sysInt e) command; k : Fn α).run Q s :=
  safe_check (safe_scan_sys (fun _ => ⟨fun _ => safe_harmless hc hQ, fun h => absurd rfl h⟩)
    fun v s' hv hne => ⟨nofun, fun _ => hk v s' hv hne⟩)

theorem safe_scan_log {level : Level} {format : String} {Q : Int → Scanning → Prop} (h : ∀ r, Q r s) :
    Safe (scanEnv D alphasort writeFd) (fun _ => True) (mrLog level format) Q s := by
  refine ⟨trivial, ?_⟩
  rintro r s' ⟨rfl | rfl, rfl⟩
  · exact ⟨trivial, h _⟩
  · exact ⟨trivial, h _⟩

theorem safe_scan_logError {format : String} (h : Safe (scanEnv D alphasort writeFd) (fun _ => True) k.run Q s) :
    Safe (scanEnv D alphasort writeFd) (fun _ => True) (do mrLogError format; k : Fn α).run Q s :=
  safe_lift (safe_bind (safe_scan_log fun _ => ⟨trivial, h⟩))

theorem safe_scan_logCheck {level : Level} {format : String} (hQ : Harmless Q)
    (hk : Safe (scanEnv D alphasort writeFd) (fun _ => True) k.run Q s) :
    Safe (scanEnv D alphasort writeFd) (fun _ => True)
      (do syscallRetCheck (← mrLog level format) skip; k : Fn α).run Q s :=
  safe_check (safe_scan_log fun _ => ⟨fun _ => safe_harmless goes_skip hQ, fun _ => hk⟩)

/-- `write_n` writes all it is given, or fails. -/
theorem writeN_scan (n : Nat) {rest : Bytes} {s' : Scanning} {r : Int}
    (h : Loop (scanSys D alphasort writeFd) (writeNBlock writeFd n) s (writeNBlock writeFd n rest) s' r) :
    r = -1 ∨ r = n ∧ s' = { s with out := s.out ++ rest } := by
  generalize hp : writeNBlock writeFd n rest = p at h
  induction h generalizing rest with
  | leave h =>
    subst hp
    unfold writeNBlock at h
    split at h
    · rename_i hr
      obtain ⟨rfl, he⟩ := runs_ret.mp h
      cases he
      simp [hr]
    · obtain ⟨v, s1, ⟨-, hv⟩, hk⟩ := runs_call.mp h
      rcases hv with ⟨rfl, rfl⟩ | ⟨k, -, rfl, rfl⟩
      · obtain ⟨-, he⟩ := runs_ret.mp hk
        cases he
        exact .inl rfl
      · obtain ⟨-, he⟩ := runs_ret.mp hk
        cases he
  | next h _ ih =>
    subst hp
    unfold writeNBlock at h
    split at h
    · obtain ⟨-, he⟩ := runs_ret.mp h
      cases he
    · obtain ⟨v, s1, ⟨-, hv⟩, hk⟩ := runs_call.mp h
      rcases hv with ⟨rfl, rfl⟩ | ⟨k, -, rfl, rfl⟩
      · obtain ⟨-, he⟩ := runs_ret.mp hk
        cases he
      · obtain ⟨rfl, he⟩ := runs_ret.mp hk
        cases he
        rcases ih rfl with hr | ⟨hr, hs⟩
        · exact .inl hr
        · refine .inr ⟨hr, ?_⟩
          rw [hs]
          simp

theorem safe_scan_writeN {bs : Bytes} {Q : Int → Scanning → Prop} (hfail : ∀ s', Q (-1) s')
    (hok : Q bs.length { s with out := s.out ++ bs }) :
    Safe (scanEnv D alphasort writeFd) (fun _ => True) (writeN writeFd bs) Q s := by
  refine ⟨trivial, ?_⟩
  rintro r s' ⟨n, rfl, hn⟩
  rcases writeN_scan _ hn with rfl | ⟨rfl, rfl⟩
  · exact ⟨trivial, hfail _⟩
  · exact ⟨trivial, hok⟩

/-- A checked `write_n`. -/
theorem safe_scan_write {bs : Bytes} (hc : Goes (fun _ => True) command) (hQ : Harmless Q)
    (hk : Safe (scanEnv D alphasort writeFd) (fun _ => True) k.run Q { s with out := s.out ++ bs }) :
    Safe (scanEnv D alphasort writeFd) (fun _ => True)
      (do syscallRetCheck (← writeN writeFd bs) command; k : Fn α).run Q s :=
  safe_check (safe_scan_writeN (fun _ => ⟨fun _ => safe_harmless hc hQ, fun h => absurd rfl h⟩)
    ⟨fun h => by omega, fun _ => hk⟩)

theorem safe_scan_lineHeader {eof : Bool} {n : Nat} {Q : Bytes → Scanning → Prop}
    (h : ∀ pad : Bytes, pad.length = 7 → Q ((if eof then 1 else 0) :: pad ++ sizeBytes n) s) :
    Safe (scanEnv D alphasort writeFd) (fun _ => True) (lineHeader eof n) Q s := by
  refine ⟨trivial, ?_⟩
  rintro r s' ⟨_, rfl, ⟨pad, hp, rfl⟩, rfl⟩
  exact ⟨trivial, h pad hp⟩

end Calls

/-! ### Sending a file -/

section File

variable {alphasort : Bytes → Bytes → Prop} {s : Scanning} {α : Type} {job : Job} {caller : SendCaller}
  {filePath : Bytes}

theorem goes_sendFailed (format : String) : Goes (fun _ => True) (do
    mrLogError format
    let _ ← sysInt (.fclose .input) : Fn Unit) :=
  (goes_lift (calls_mrLogError trivial)).seq (goes_skip.ignore (calls_sysInt trivial))

theorem goes_logged (format : String) : Goes (fun _ => True) (liftM (mrLogError format) : Fn Unit) :=
  goes_lift (calls_mrLogError trivial)

/-- The file is opened, and its name is written. -/
theorem safe_sendFileOpen {Q : Except Leave Unit → Scanning → Prop} (hQ : Harmless Q)
    (hk : ∀ c, D.find filePath = some (.file c) →
      Q (.ok ()) ⟨c.bytes, false, s.out ++ (sizeBytes filePath.length ++ filePath)⟩) :
    Safe (scanEnv D alphasort job.mainToMapper.2) (fun _ => True) (sendFileOpen job.mainToMapper.2 filePath).run Q
      s := by
  refine safe_scan_logCheck hQ (safe_scan_check (goes_logged _) hQ ?_)
  rintro v s' (⟨rfl, -⟩ | ⟨c, hc, rfl, rfl⟩) hne
  · exact absurd rfl hne
  · refine safe_scan_write (goes_sendFailed _) hQ ?_
    refine safe_check_last (safe_scan_writeN (fun _ => ⟨fun _ => safe_harmless (goes_sendFailed _) hQ, ?_⟩) ⟨?_, ?_⟩)
    · exact fun h => absurd rfl h
    · intro h
      omega
    · intro _
      simpa using hk c hc

/-- A line is written, or there is none. -/
theorem safe_sendFileLine {Q : Except Leave Bool → Scanning → Prop} (hQ : Harmless Q) (hs : s.error = false)
    (hnone : ∀ s', s' = s ∧ s.rest = [] ∨ s'.error = true → Q (.ok false) s')
    (hline : ∀ pad : Bytes, pad.length = 7 → s.rest ≠ [] → Q (.ok true) ⟨afterLine s.rest, false, s.out ++
      ((0 :: pad ++ sizeBytes (dropNewline (nextLine s.rest)).length) ++ dropNewline (nextLine s.rest))⟩) :
    Safe (scanEnv D alphasort job.mainToMapper.2) (fun _ => True) (sendFileLine job.mainToMapper.2).run Q s := by
  refine safe_lift ⟨trivial, ?_⟩
  rintro r s' ⟨v, rfl, ⟨hr, rfl, rfl⟩ | ⟨rfl, rfl⟩ | ⟨hr, rfl, rfl⟩⟩
  · exact ⟨trivial, trivial, hnone _ (.inl ⟨rfl, hr⟩)⟩
  · exact ⟨trivial, trivial, hnone _ (.inr rfl)⟩
  · obtain ⟨b, bs, hb⟩ := List.exists_cons_of_ne_nil (nextLine_ne_nil hr)
    rw [hb] at hline ⊢
    refine ⟨trivial, safe_lift (safe_scan_lineHeader fun pad hp => safe_scan_write (goes_sendFailed _) hQ ?_)⟩
    have hQline := hline pad hp hr
    split
    · refine safe_scan_write (goes_sendFailed _) hQ ⟨trivial, ?_⟩
      simpa [hs] using hQline
    · have hnil : dropNewline (b :: bs) = [] := List.eq_nil_of_length_eq_zero (by omega)
      refine ⟨trivial, ?_⟩
      simpa [hs, hnil] using hQline

/-- The end of the file. -/
theorem safe_sendFileEnd {Q : Except Leave Unit → Scanning → Prop} (hQ : Harmless Q)
    (hk : ∀ (pad : Bytes) s', pad.length = 7 → s.error = false → s'.out = s.out ++ (1 :: pad ++ sizeBytes 0) →
      Q (.ok ()) s') :
    Safe (scanEnv D alphasort job.mainToMapper.2) (fun _ => True) (sendFileEnd job.mainToMapper.2).run Q s := by
  refine safe_scan_check (goes_sendFailed _) hQ ?_
  rintro v s' ⟨hv, rfl⟩ hne
  have herr : s'.error = false := by
    by_contra h
    rw [Bool.not_eq_false] at h
    rw [h, if_pos rfl] at hv
    exact hne hv
  refine safe_lift (safe_scan_lineHeader fun pad hp => safe_scan_write (goes_sendFailed _) hQ ?_)
  refine safe_scan_check (goes_logged _) hQ ?_
  rintro v s' ⟨-, rfl⟩ -
  refine safe_check_last (safe_scan_log fun r => ⟨fun _ => safe_harmless goes_skip hQ, fun _ => ?_⟩)
  exact hk pad _ hp herr rfl

/-- From the head of the loop to the next. -/
theorem safe_sendFileLoop {Q : Except Leave MainPhase → Scanning → Prop} (hQ : Harmless Q) (hs : s.error = false)
    (hline : ∀ pad : Bytes, pad.length = 7 → s.rest ≠ [] → Q (.ok (.line job caller filePath)) ⟨afterLine s.rest, false,
      s.out ++ ((0 :: pad ++ sizeBytes (dropNewline (nextLine s.rest)).length) ++ dropNewline (nextLine s.rest))⟩)
    (hend : ∀ (pad : Bytes) s', pad.length = 7 → s.rest = [] → s'.out = s.out ++ (1 :: pad ++ sizeBytes 0) →
      Q (.error (.ret 0)) s') :
    Safe (scanEnv D alphasort job.mainToMapper.2) (fun _ => True) (sendFileLoop job caller filePath).run Q s := by
  refine safe_fn_bind (safe_sendFileLine hQ hs (fun s' hs' => ?_) fun pad hp hr => ⟨trivial, hline pad hp hr⟩)
  refine safe_fn_bind (safe_sendFileEnd hQ fun pad s'' hp herr hout => ⟨trivial, ?_⟩)
  rcases hs' with ⟨rfl, hr⟩ | h
  · exact hend pad s'' hp hr hout
  · rw [h] at herr
    cases herr

end File

/-! ### Sending the directory -/

/-- The path that the code builds for an entry. -/
def Directory.built (D : Directory) (e : Entry) : Bytes := fullPath D.path.bytes e.name.bytes

/-- The file that the code finds there. -/
def Directory.found? (D : Directory) (e : Entry) : Option (Bytes × Bytes) :=
  if e.dots then none
  else match D.find (D.built e) with
    | some (.file c) => some (D.built e, c.bytes)
    | _ => none

/-- The entries in the order of `scandir`. -/
structure Directory.Listing (D : Directory) (alphasort : Bytes → Bytes → Prop) (es : List Entry) : Prop where
  perm : es.Perm D.entries
  sorted : (es.map fun e => e.name.bytes).Pairwise alphasort

/-- The entries `es` have been dealt with, and `w` has been written. -/
structure Directory.Dealt (D : Directory) (es : List Entry) (w : Bytes) : Prop where
  found : ∀ e ∈ es, e.dots = false → (D.find (D.built e)).isSome = true
  wires : NamedWires (es.filterMap D.found?) w

variable {alphasort : Bytes → Bytes → Prop} {job : Job}

theorem Directory.Dealt.snoc {es : List Entry} {e : Entry} {w w' : Bytes} (h : D.Dealt es w)
    (hf : e.dots = false → (D.find (D.built e)).isSome = true)
    (hw : NamedWires ((es ++ [e]).filterMap D.found?) w') : D.Dealt (es ++ [e]) w' where
  found x hx hd := by
    rcases List.mem_append.mp hx with hx | hx
    · exact h.found x hx hd
    · obtain rfl := List.mem_singleton.mp hx
      exact hf hd
  wires := hw

/-- An entry of which nothing is sent. -/
theorem Directory.Dealt.skip {es : List Entry} {e : Entry} {w : Bytes} (h : D.Dealt es w)
    (hf : e.dots = false → D.find (D.built e) = some .dir) : D.Dealt (es ++ [e]) w := by
  refine h.snoc (fun hd => by rw [hf hd]; rfl) ?_
  have hnone : D.found? e = none := by
    unfold Directory.found?
    cases hd : e.dots with
    | true => rfl
    | false =>
      rw [hf hd]
      rfl
  rw [List.filterMap_append, List.filterMap_cons_none hnone]
  simpa using h.wires

/-- A file in the middle: some of its lines have been sent. -/
structure Directory.InFile (D : Directory) (alphasort : Bytes → Bytes → Prop) (done : List Entry) (e : Entry)
    (todo : List Entry) (s : Scanning) : Prop where
  listing : D.Listing alphasort (done ++ e :: todo)
  named : e.dots = false
  noError : s.error = false
  sent : ∃ c w v, D.find (D.built e) = some (.file c) ∧ D.Dealt done w ∧
    s.out = w ++ (sizeBytes (D.built e).length ++ D.built e ++ v) ∧
    ∀ u, LineWires (linesOf s.rest) u → LineWires (linesOf c.bytes) (v ++ u)

/-- The state at the head of the loop of `send_file_to_mapper`. -/
def Directory.AtPhase (D : Directory) (alphasort : Bytes → Bytes → Prop) (job : Job) (ph : MainPhase) (s : Scanning) :
    Prop :=
  ∃ done e todo, ph = .line job (.directory D.path.bytes (todo.map fun e => e.name.bytes)) (D.built e) ∧
    D.InFile alphasort done e todo s

/-- What has been sent when the function returns 0. -/
def Directory.AtReturn (D : Directory) (alphasort : Bytes → Bytes → Prop) (l : Leave) (s : Scanning) : Prop :=
  l = .ret 0 → ∃ es, D.Listing alphasort es ∧ D.Dealt es s.out

theorem harmless_return : Harmless (Ends (D.AtPhase alphasort job) (D.AtReturn alphasort)) := fun _ h => by cases h

theorem safe_scan_isDirectory {α : Type} {path : Bytes} {k : Int → Fn α} {Q : Except Leave α → Scanning → Prop}
    {s : Scanning} (hfail : Safe (scanEnv D alphasort job.mainToMapper.2) (fun _ => True) (k (-1)).run Q s)
    (hok : ∀ node, D.find path = some node →
      Safe (scanEnv D alphasort job.mainToMapper.2) (fun _ => True) (k (if node = .dir then 1 else 0)).run Q s) :
    Safe (scanEnv D alphasort job.mainToMapper.2) (fun _ => True) ((isDirectory path).call >>= k).run Q s := by
  refine safe_call_fn (safe_lift ⟨trivial, ?_⟩)
  rintro r s' ⟨v, rfl, rfl, rfl | ⟨node, hn, rfl⟩⟩
  · exact ⟨trivial, safe_scan_logError ⟨trivial, hfail⟩⟩
  · refine ⟨trivial, trivial, ?_⟩
    simpa using hok node hn

/-- **The entries**, from any of them on. -/
theorem safe_sendEntries : ∀ (todo done : List Entry) (s : Scanning), D.Listing alphasort (done ++ todo) →
    D.Dealt done s.out →
    Safe (scanEnv D alphasort job.mainToMapper.2) (fun _ => True)
      (sendEntries job D.path.bytes (todo.map fun e => e.name.bytes)).run
      (Ends (D.AtPhase alphasort job) (D.AtReturn alphasort)) s
  | [], done, s, hl, hd => by
    rw [List.append_nil] at hl
    exact safe_scan_logCheck harmless_return ⟨trivial, fun _ => ⟨done, hl, hd⟩⟩
  | e :: todo, done, s, hl, hd => by
    have next : ∀ s' : Scanning, D.Dealt (done ++ [e]) s'.out →
        Safe (scanEnv D alphasort job.mainToMapper.2) (fun _ => True)
          (sendEntries job D.path.bytes (todo.map fun e => e.name.bytes)).run
          (Ends (D.AtPhase alphasort job) (D.AtReturn alphasort)) s' := by
      intro s' hd'
      exact safe_sendEntries todo (done ++ [e]) s' (by simpa using hl) hd'
    rw [List.map_cons, sendEntries]
    split
    · rename_i hdots
      refine next s (hd.skip fun h => ?_)
      simp [Entry.dots, hdots] at h
    · rename_i hdots
      have hname : e.dots = false := by simpa [Entry.dots] using hdots
      refine safe_scan_isDirectory ?_ fun node hn => safe_test (fun h => by split at h <;> omega) fun _ => ?_
      · exact safe_test (fun _ => safe_harmless (goes_logged _) harmless_return) fun h => absurd rfl h
      · cases node with
        | dir => exact safe_lift (safe_scan_log fun _ => next s (hd.skip fun _ => hn))
        | file c =>
          refine safe_within (safe_fn_bind (safe_sendFileOpen ?_ fun c' hc => ?_))
          · intro s'
            exact safe_test (fun _ => safe_harmless (goes_logged _) harmless_return) fun h => absurd rfl h
          · obtain rfl : c' = c := by
              have := hc.symm.trans hn
              simpa using this
            refine ⟨trivial, done, e, todo, rfl, hl, hname, rfl, c', s.out, [], hn, hd, by simp [Directory.built], ?_⟩
            exact fun u hu => hu

/-- One block. -/
theorem safe_sendFilesBlock (ph : MainPhase) (s : Scanning) (h : D.AtPhase alphasort job ph s) :
    Safe (scanEnv D alphasort job.mainToMapper.2) (fun _ => True) (sendFilesBlock ph).run
      (Ends (D.AtPhase alphasort job) (D.AtReturn alphasort)) s := by
  obtain ⟨done, e, todo, rfl, hf⟩ := h
  obtain ⟨c, w, v, hn, hd, hout, hlines⟩ := hf.sent
  refine safe_within (safe_sendFileLoop (fun s' => ?_) hf.noError (fun pad hp hr => ?_) fun pad s' hp hr hs' => ?_)
  · exact safe_test (fun _ => safe_harmless (goes_logged _) harmless_return) fun h => absurd rfl h
  · -- another line of the file
    refine ⟨done, e, todo, rfl, hf.listing, hf.named, rfl, c, w, v ++ ((0 :: pad ++
      sizeBytes (dropNewline (nextLine s.rest)).length) ++ dropNewline (nextLine s.rest)), hn, hd, ?_, fun u hu => ?_⟩
    · simp [hout]
    · have hw : LineWires (linesOf s.rest) _ := linesOf_cons hr ▸ LineWires.line pad hp hu
      simpa using hlines _ hw
  · -- the end of the file
    refine safe_test (fun h => by omega) fun _ => safe_sendEntries todo (done ++ [e]) s' ?_ ?_
    · simpa using hf.listing
    · have hw : LineWires (linesOf s.rest) (1 :: pad ++ sizeBytes 0) := by
        rw [hr, linesOf_nil]
        exact .eof pad hp
      have hfound : D.found? e = some (D.built e, c.bytes) := by
        simp [Directory.found?, hf.named, hn]
      refine hd.snoc (fun _ => by rw [hn]; rfl) ?_
      rw [List.filterMap_append, List.filterMap_cons_some hfound, List.filterMap_nil, hs', hout]
      have := @NamedWires.snoc _ _ _ (D.built e) _ hd.wires (hlines _ hw)
      simpa using this

/-- **The function**, from its beginning. -/
theorem safe_sendFilesInDirectory : Safe (scanEnv D alphasort job.mainToMapper.2) (fun _ => True)
    (sendFilesInDirectoryToMapper job D.path.bytes).run (Ends (D.AtPhase alphasort job) (D.AtReturn alphasort))
    .start := by
  refine safe_scan_logCheck harmless_return (safe_lift ⟨trivial, ?_⟩)
  rintro r s' ⟨v, rfl, rfl, rfl | ⟨-, es, hp, hs, rfl⟩⟩
  · exact ⟨trivial, safe_scan_logError ⟨trivial, harmless_return _⟩⟩
  · refine ⟨trivial, safe_scan_logCheck harmless_return (safe_sendEntries es [] _ ⟨hp, hs⟩ ⟨?_, .nil⟩)⟩
    exact fun e he => by cases he

/-- When it returns 0, the stream carries what the code has found at the paths it has built. -/
theorem DirectorySent.found {w : Bytes} (h : DirectorySent D alphasort job w) :
    ∃ es, D.Listing alphasort es ∧ D.Dealt es w := by
  obtain ⟨s, hl, rfl⟩ := h
  exact Safe.loop safe_sendFilesBlock safe_sendFilesInDirectory hl rfl

/-! ## What the stream should carry -/

theorem length_built_lt (D : Directory) (e : Entry) : (D.built e).length < pathMax := by
  simp only [Directory.built, fullPath, List.length_take, pathMax]
  omega

/-- A path that is not too long is built as it is. -/
theorem built_of_lt {e : Entry} (h : (e.path D.path).length < pathMax) : D.built e = e.path D.path := by
  refine List.take_of_length_le ?_
  simp only [Entry.path, pathMax] at h ⊢
  omega

theorem found_of_lt {e : Entry} (he : e ∈ D.entries) (h : (e.path D.path).length < pathMax) :
    D.found? e = D.file? e := by
  unfold Directory.found? Directory.file?
  rw [built_of_lt h, D.own e he h]
  cases e.node <;> rfl

theorem Directory.Named.found (h : D.Named) {e : Entry} (he : e ∈ D.entries) : D.found? e = D.file? e := by
  cases hd : e.dots with
  | true => simp [Directory.found?, Directory.file?, hd]
  | false =>
    rcases h e he hd with hlt | ⟨hdir, hfind⟩
    · exact found_of_lt he hlt
    · unfold Directory.found? Directory.file?
      change D.find (D.built e) = some .dir at hfind
      rw [hfind, hdir]

theorem length_found_lt {e : Entry} {f : Bytes × Bytes} (h : D.found? e = some f) : f.1.length < pathMax := by
  unfold Directory.found? at h
  split at h
  · cases h
  · split at h
    · cases h
      exact length_built_lt D e
    · cases h

theorem Carried.of_obj {path : Bytes} (hp : path.length < sizeT) (c : Obj) : Carried (path, c.bytes) := by
  have hc := c.fits
  unfold ptrdiffMax at hc
  have hlt : c.bytes.length < sizeT := by
    unfold sizeT
    omega
  exact ⟨hp, hlt⟩

theorem carried_found {e : Entry} {f : Bytes × Bytes} (h : D.found? e = some f) : Carried f := by
  have hl := length_found_lt h
  have hlt : f.1.length < sizeT := hl.trans (by unfold pathMax sizeT; omega)
  unfold Directory.found? at h
  split at h
  · cases h
  · split at h
    · cases h
      exact .of_obj hlt _
    · cases h

theorem file?_eq_some {e : Entry} {f : Bytes × Bytes} :
    D.file? e = some f ↔ e.dots = false ∧ ∃ c, e.node = .file c ∧ f = (e.path D.path, c.bytes) := by
  unfold Directory.file?
  cases e.dots with
  | true => simp
  | false => cases e.node <;> simp [eq_comm]

theorem carried_file {e : Entry} {f : Bytes × Bytes} (h : D.file? e = some f) : Carried f := by
  obtain ⟨-, c, -, rfl⟩ := file?_eq_some.mp h
  have hd := D.path.fits
  have hn := e.short
  unfold ptrdiffMax at hd
  refine .of_obj ?_ c
  rw [length_path]
  unfold sizeT
  omega

/-- If every entry with a file is found as it is, and no more are found, all are found as they are. -/
theorem found_of_length {α β : Type} {f g : α → Option β} {l : List α} (h : ∀ x ∈ l, g x ≠ none → f x = g x)
    (hl : (l.filterMap f).length = (l.filterMap g).length) : ∀ x ∈ l, f x = g x := by
  have count : ∀ k : α → Option β, (l.filterMap k).length = l.countP fun x => (k x).isSome := by
    intro k
    rw [List.length_filterMap_eq_countP]
  rw [count, count] at hl
  clear count
  induction l with
  | nil => nofun
  | cons x l ih =>
    have le : l.countP (fun x => (g x).isSome) ≤ l.countP fun x => (f x).isSome := by
      refine List.countP_mono_left fun y hy hg => ?_
      rw [h y (List.mem_cons_of_mem _ hy) (Option.ne_none_iff_isSome.mpr hg)]
      exact hg
    have tail := ih fun y hy => h y (List.mem_cons_of_mem _ hy)
    rw [List.countP_cons, List.countP_cons] at hl
    have head : f x = g x := by
      cases hg : g x with
      | some b => rw [← hg, h x List.mem_cons_self (by simp [hg])]
      | none =>
        cases hf : f x with
        | none => rfl
        | some b =>
          simp only [hf, hg, Option.isSome_some, Option.isSome_none, if_true] at hl
          simp at hl
          omega
    rw [head] at hl
    intro y hy
    rcases List.mem_cons.mp hy with rfl | hy
    · exact head
    · exact tail (by omega) y hy

/-- The paths found are those they should be only if every path names its entry. -/
theorem named_of_paths {es es' : List Entry} (hp : es.Perm D.entries) (hp' : es'.Perm D.entries)
    (hf : ∀ e ∈ es, e.dots = false → (D.find (D.built e)).isSome = true)
    (h : (es.filterMap D.found?).map Prod.fst = (es'.filterMap D.file?).map Prod.fst) : D.Named := by
  -- a path in the stream is one that the code has built
  have hlt : ∀ e ∈ D.entries, D.file? e ≠ none → (e.path D.path).length < pathMax := by
    intro e he hfile
    obtain ⟨f, hfile⟩ := Option.ne_none_iff_exists'.mp hfile
    obtain ⟨-, c, -, rfl⟩ := file?_eq_some.mp hfile
    have hmem : e.path D.path ∈ (es.filterMap D.found?).map Prod.fst := by
      rw [h]
      exact List.mem_map_of_mem (f := Prod.fst) (List.mem_filterMap.mpr ⟨e, hp'.symm.subset he, hfile⟩)
    obtain ⟨f, hfm, hpath⟩ := List.mem_map.mp hmem
    obtain ⟨e', -, hfound⟩ := List.mem_filterMap.mp hfm
    rw [← hpath]
    exact length_found_lt hfound
  -- so that every file is found, and as many paths as there are files
  have hfound : ∀ e ∈ D.entries, D.found? e = D.file? e := by
    refine found_of_length (fun e he hfile => found_of_lt he (hlt e he hfile)) ?_
    have hlen := congrArg List.length h
    rw [List.length_map, List.length_map] at hlen
    rw [← (hp.filterMap D.found?).length_eq, hlen, (hp'.filterMap D.file?).length_eq]
  intro e he hd
  cases hnode : e.node with
  | file c =>
    refine .inl (hlt e he ?_)
    rw [file?_eq_some.mpr ⟨hd, c, hnode, rfl⟩]
    exact nofun
  | dir =>
    refine .inr ⟨rfl, ?_⟩
    have hnone : D.found? e = none := by
      rw [hfound e he]
      unfold Directory.file?
      simp [hnode]
    change D.find (D.built e) = some .dir
    have hsome := hf e (hp.symm.subset he) hd
    unfold Directory.found? at hnone
    cases hfind : D.find (D.built e) with
    | none => simp [hfind] at hsome
    | some node =>
      cases node with
      | dir => rfl
      | file c => simp [hd, hfind] at hnone

/-- **Directory input.** -/
theorem directory_input {w : Bytes} (h : DirectorySent D alphasort job w) :
    (∃ es : List Entry, es.Perm D.entries ∧ (es.map fun e => e.name.bytes).Pairwise alphasort ∧
      NamedWires (es.filterMap D.file?) w) ↔ D.Named := by
  obtain ⟨es, hl, hd⟩ := h.found
  constructor
  · rintro ⟨es', hp', -, hw'⟩
    refine named_of_paths hl.perm hp' hd.found (hd.wires.paths hw' ?_ ?_)
    · intro f hf
      obtain ⟨e, -, he⟩ := List.mem_filterMap.mp hf
      exact carried_found he
    · intro f hf
      obtain ⟨e, -, he⟩ := List.mem_filterMap.mp hf
      exact carried_file he
  · intro hn
    refine ⟨es, hl.perm, hl.sorted, ?_⟩
    rw [← List.filterMap_congr fun e he => hn.found (hl.perm.subset he)]
    exact hd.wires

/-! ## Concrete runs -/

section Accepted

variable {writeFd : Nat} {s : Scanning}

theorem log_accepted {level : Level} {format : String} : scanEnv D alphasort writeFd s (.log level format) (.int 0) s :=
  ⟨.inl rfl, rfl⟩

theorem stat_accepted {path : Bytes} {node : PathNode} (h : D.find path = some node) :
    scanEnv D alphasort writeFd s (.sys (.stat path)) (.sys (.val (.isDir (node = .dir)))) s :=
  ⟨_, rfl, rfl, .inr ⟨node, h, rfl⟩⟩

theorem scandir_accepted {es : List Entry} (hp : es.Perm D.entries)
    (h : (es.map fun e => e.name.bytes).Pairwise alphasort) :
    scanEnv D alphasort writeFd s (.sys (.scandir D.path.bytes)) (.sys (.val (.names (es.map fun e => e.name.bytes)))) s :=
  ⟨_, rfl, rfl, .inr ⟨rfl, es, hp, h, rfl⟩⟩

theorem writeN_accepted (bs : Bytes) :
    scanEnv D alphasort writeFd s (.writeN writeFd bs) (.int bs.length) { s with out := s.out ++ bs } := by
  refine ⟨_, rfl, ?_⟩
  have done : ∀ s' : Scanning, Loop (scanSys D alphasort writeFd) (writeNBlock writeFd bs.length) s'
      (writeNBlock writeFd bs.length []) s' bs.length := by
    intro s'
    unfold writeNBlock
    rw [if_pos rfl]
    exact .leave .ret
  by_cases hb : bs = []
  · subst hb
    simpa using done s
  · unfold writeNBlock
    rw [if_neg hb]
    refine .next (.call ⟨rfl, .inr ⟨bs.length, Nat.le_refl _, rfl, rfl⟩⟩ .ret) ?_
    rw [List.drop_length, List.take_length]
    exact done _

end Accepted

/-- An entry `a`, a file. -/
def fileA : Entry := ⟨.a, .file ⟨[120], by decide⟩, by decide⟩

/-- The path `.`, `./.`, `././.` and so on: the working directory. -/
def dotPath : Nat → Bytes
  | 0 => [46]
  | n + 1 => 46 :: 47 :: dotPath n

theorem length_dotPath (n : Nat) : (dotPath n).length = 2 * n + 1 := by
  induction n with
  | zero => rfl
  | succ n ih =>
    rw [dotPath, List.length_cons, List.length_cons, ih]
    omega

theorem nulFree_dotPath (n : Nat) : (0 : UInt8) ∉ dotPath n := by
  induction n with
  | zero => decide
  | succ n ih => simpa [dotPath] using ih

/-- A job. -/
def jobAB : Job := ⟨[], [], (3, 4), (5, 6), 10, 11⟩

/-- A directory with a file `a`, at a path of 4095 bytes. -/
def fullDirectory (path : CString) (hlen : path.bytes.length = 4095) : Directory where
  path := path
  entries := [fileA]
  distinct := by decide
  find p := if p = path.bytes then some .dir else none
  own e _ h := by
    rw [length_path] at h
    unfold pathMax at h
    omega

/-- What is found at the path of the file is the directory, and nothing is sent. -/
theorem file_dropped {path : CString} (hlen : path.bytes.length = 4095) :
    DirectorySent (fullDirectory path hlen) alphasort job [] ∧
      ¬ ∃ es : List Entry, es.Perm (fullDirectory path hlen).entries ∧
        (es.map fun e => e.name.bytes).Pairwise alphasort ∧
          NamedWires (es.filterMap (fullDirectory path hlen).file?) [] := by
  have hfind : (fullDirectory path hlen).find ((fullDirectory path hlen).built fileA) = some .dir := by
    have hbuilt : (fullDirectory path hlen).built fileA = path.bytes := List.take_left' hlen
    rw [hbuilt]
    exact if_pos rfl
  constructor
  · refine ⟨.start, .leave ?_, rfl⟩
    refine .call log_accepted (.call (scandir_accepted (.refl _) (List.pairwise_singleton _ _)) (.call log_accepted ?_))
    exact .call (stat_accepted hfind) (.call log_accepted (.call log_accepted .ret))
  · rintro ⟨es, hp, -, hw⟩
    obtain rfl := List.perm_singleton.mp hp
    have hfile : (fullDirectory path hlen).file? fileA = some (fileA.path path, [120]) := rfl
    rw [List.filterMap_cons_some hfile] at hw
    exact hw.ne_nil rfl

/-- The working directory, at a path of 4095 bytes. -/
def dotDirectory : Directory :=
  fullDirectory ⟨dotPath 2047, nulFree_dotPath 2047, by rw [length_dotPath]; decide⟩ (length_dotPath 2047)

/-- **A file is dropped.** -/
theorem dotDirectory_dropped : DirectorySent dotDirectory (· ≤ ·) jobAB [] ∧
    ¬ ∃ es : List Entry, es.Perm dotDirectory.entries ∧ (es.map fun e => e.name.bytes).Pairwise (· ≤ ·) ∧
      NamedWires (es.filterMap dotDirectory.file?) [] :=
  file_dropped _

theorem uninit_accepted (n : Nat) : scanEnv D alphasort writeFd s (.sys (.uninit n))
    (.sys (.val (.bytes (List.replicate n 0)))) s :=
  ⟨_, rfl, ⟨_, List.length_replicate, rfl⟩, rfl⟩

/-! ### A directory at a long path -/

theorem nulFree_nameB : (0 : UInt8) ∉ ([98] : Bytes) := by decide

theorem fits_nameB : ([98] : Bytes).length < ptrdiffMax := by decide

theorem fits_nameDot : ([46] : Bytes).length < ptrdiffMax := by decide

theorem nulFree_nameDot : (0 : UInt8) ∉ ([46] : Bytes) := by decide

theorem fits_lineY : ([121] : Bytes).length ≤ ptrdiffMax := by decide

theorem short_nameB : ([98] : Bytes).length ≤ 255 := by decide

theorem short_nameDot : ([46] : Bytes).length ≤ 255 := by decide

/-- An entry `b`, a file. -/
def fileB : Entry := ⟨⟨[98], nulFree_nameB, fits_nameB⟩, .file ⟨[121], fits_lineY⟩, short_nameB⟩

/-- The entry `.`. -/
def entryDot : Entry := ⟨⟨[46], nulFree_nameDot, fits_nameDot⟩, .dir, short_nameDot⟩

theorem distinct_long : ([fileB, entryDot, fileA].map fun e => e.name.bytes).Nodup := by decide

/-- What there is in `longDirectory`. -/
def findLong (path : CString) (p : Bytes) : Option PathNode :=
  if p = fileA.path path then some fileA.node else if p = fileB.path path then some fileB.node else some .dir

theorem findLong_own (path : CString) :
    ∀ e ∈ [fileB, entryDot, fileA], (e.path path).length < pathMax → findLong path (e.path path) = some e.node := by
  intro e he _
  have hne : ∀ {d e : Entry}, d.name.bytes ≠ e.name.bytes → d.path path ≠ e.path path := by
    intro d e hd heq
    exact hd (List.cons.inj (List.append_cancel_left heq)).2
  rcases List.mem_cons.mp he with rfl | he
  · rw [findLong, if_neg (hne (by decide)), if_pos rfl]
  rcases List.mem_cons.mp he with rfl | he
  · rw [findLong, if_neg (hne (by decide)), if_neg (hne (by decide))]
    rfl
  · obtain rfl := List.mem_singleton.mp he
    rw [findLong, if_pos rfl]

/-- A directory with the files `b` and `a`. -/
def longDirectory (path : CString) : Directory where
  path := path
  entries := [fileB, entryDot, fileA]
  distinct := distinct_long
  find := findLong path
  own := findLong_own path

section Files

variable {e : Entry} {names : List Bytes} {out : Bytes}

/-- From the loop over the entries to the loop over the lines of a file. -/
theorem opens_accepted {c : Obj} (hdots : ¬ (e.name.bytes = [46] ∨ e.name.bytes = [46, 46]))
    (hfind : D.find (D.built e) = some (.file c)) :
    Runs (scanEnv D alphasort job.mainToMapper.2) ⟨[], false, out⟩ (sendEntries job D.path.bytes (e.name.bytes :: names)).run
      ⟨c.bytes, false, out ++ sizeBytes (D.built e).length ++ D.built e⟩
      (.ok (.line job (.directory D.path.bytes names) (D.built e))) := by
  rw [sendEntries, if_neg hdots]
  refine .call (stat_accepted hfind) (.call log_accepted (.call ⟨.ok, rfl, .inr ⟨_, hfind, rfl, rfl⟩⟩ ?_))
  exact .call (writeN_accepted _) (.call (writeN_accepted _) .ret)

/-- The line of a file of one byte. -/
theorem line_accepted {x : UInt8} (hx : x ∈ [120, 121]) {filePath : Bytes} :
    Runs (scanEnv D alphasort job.mainToMapper.2) ⟨[x], false, out⟩
      (sendFilesBlock (.line job (.directory D.path.bytes names) filePath)).run
      ⟨[], false, out ++ (0 :: List.replicate 7 0 ++ sizeBytes 1) ++ [x]⟩
      (.ok (.line job (.directory D.path.bytes names) filePath)) := by
  rcases List.mem_pair.mp hx with rfl | rfl
  · refine .call ⟨_, rfl, .inr (.inr ⟨nofun, rfl, rfl⟩)⟩ (.call (uninit_accepted 7) ?_)
    exact .call (writeN_accepted _) (.call (writeN_accepted _) .ret)
  · refine .call ⟨_, rfl, .inr (.inr ⟨nofun, rfl, rfl⟩)⟩ (.call (uninit_accepted 7) ?_)
    exact .call (writeN_accepted _) (.call (writeN_accepted _) .ret)

/-- From the end of a file to the other entries. -/
theorem ends_accepted {filePath : Bytes} {s' : Scanning} {x : Except Leave MainPhase}
    (h : Runs (scanEnv D alphasort job.mainToMapper.2) ⟨[], false, out ++ (1 :: List.replicate 7 0 ++ sizeBytes 0)⟩
      (sendEntries job D.path.bytes names).run s' x) :
    Runs (scanEnv D alphasort job.mainToMapper.2) ⟨[], false, out⟩
      (sendFilesBlock (.line job (.directory D.path.bytes names) filePath)).run s' x := by
  refine .call ⟨_, rfl, .inl ⟨rfl, rfl, rfl⟩⟩ (.call ⟨_, rfl, rfl, rfl⟩ (.call (uninit_accepted 7) ?_))
  exact .call (writeN_accepted _) (.call ⟨.ok, rfl, .inl rfl, rfl⟩ (.call log_accepted h))

end Files

/-- The files of `longDirectory` are sent in the order of `alphasort`, though the paths of the files are the longest that
are not cut. -/
theorem long_sent {path : CString} (hlen : path.bytes.length = 4093) :
    ∃ w, DirectorySent (longDirectory path) (· ≤ ·) job w := by
  have built : ∀ e : Entry, e.name.bytes.length = 1 → (longDirectory path).built e = e.path path := by
    intro e he
    refine built_of_lt ?_
    rw [length_path, he]
    exact (congrArg (· + 1 + 1) hlen).trans_lt (by decide)
  have findA : (longDirectory path).find ((longDirectory path).built fileA) = some fileA.node := by
    rw [built fileA rfl]
    exact findLong_own path _ (by simp) (by rw [length_path, hlen]; decide)
  have findB : (longDirectory path).find ((longDirectory path).built fileB) = some fileB.node := by
    rw [built fileB rfl]
    exact findLong_own path _ (by simp) (by rw [length_path, hlen]; decide)
  have hperm : [entryDot, fileA, fileB].Perm [fileB, entryDot, fileA] := by decide
  have hsorted : ([entryDot, fileA, fileB].map fun e => e.name.bytes).Pairwise (· ≤ ·) := by decide
  have opensA : ∀ names out, Runs (scanEnv (longDirectory path) (· ≤ ·) job.mainToMapper.2) ⟨[], false, out⟩
      (sendEntries job path.bytes ([97] :: names)).run ⟨[120], false, _⟩ (.ok (.line job (.directory path.bytes names) _)) :=
    fun names out => opens_accepted (by decide) findA
  have opensB : ∀ names out, Runs (scanEnv (longDirectory path) (· ≤ ·) job.mainToMapper.2) ⟨[], false, out⟩
      (sendEntries job path.bytes ([98] :: names)).run ⟨[121], false, _⟩ (.ok (.line job (.directory path.bytes names) _)) :=
    fun names out => opens_accepted (by decide) findB
  have first : Runs (scanEnv (longDirectory path) (· ≤ ·) job.mainToMapper.2) .start
      (sendFilesInDirectoryToMapper job path.bytes).run ⟨[120], false, _⟩ (.ok (.line job (.directory path.bytes [[98]]) _)) :=
    .call log_accepted (.call (scandir_accepted hperm hsorted) (.call log_accepted (opensA _ _)))
  have last : ∀ out, Runs (scanEnv (longDirectory path) (· ≤ ·) job.mainToMapper.2) ⟨[], false, out⟩
      (sendEntries job path.bytes []).run ⟨[], false, out⟩ (.error (.ret 0)) := fun out => .call log_accepted .ret
  exact ⟨_, _, .next first (.next (line_accepted (by simp)) (.next (ends_accepted (opensB _ _))
    (.next (line_accepted (by simp)) (.leave (ends_accepted (last _)))))), rfl⟩

theorem dots_fits : (dotPath 2046).length < ptrdiffMax := by
  rw [length_dotPath]
  decide

/-- The path `././.` and so on, of 4093 bytes. -/
def dots : CString := ⟨dotPath 2046, nulFree_dotPath 2046, dots_fits⟩

theorem dots_length : dots.bytes.length = 4093 := length_dotPath 2046

theorem directory_input_longPaths : ∃ (D : Directory) (w : Bytes) (es : List Entry),
    D.entries = [fileB, entryDot, fileA] ∧ (fileA.path D.path).length = 4095 ∧ DirectorySent D (· ≤ ·) jobAB w ∧
      es.Perm D.entries ∧ (es.map fun e => e.name.bytes).Pairwise (· ≤ ·) ∧ NamedWires (es.filterMap D.file?) w := by
  obtain ⟨w, hw⟩ : ∃ w, DirectorySent (longDirectory dots) (· ≤ ·) jobAB w := long_sent dots_length
  have hpath : (fileA.path dots).length = 4095 := by
    rw [length_path, dots_length]
    rfl
  have hname : ∀ e ∈ (longDirectory dots).entries, e.name.bytes.length = 1 := by decide
  obtain ⟨es, hp, hs, hn⟩ := (directory_input hw).mpr fun e he _ => .inl <| by
    rw [length_path]
    exact (congrArg₂ (· + 1 + ·) dots_length (hname e he)).trans_lt (by decide)
  exact ⟨longDirectory dots, w, es, rfl, hpath, hw, hp, hs, hn⟩

end MrLib
