import MrLib.Process.Sizes

/-!
# The interface

The functions of `mr.c` that handle attributes and executions, with `mr_init` and `mr_cleanup` of `core.c`. The memory
(`ApiState`) holds the variables and the texts of the user, and the blocks that the library has allocated. A call may be
undefined, and then there is no step; `malloc` and `strdup` may fail.

After any calls, every execution that has not been destroyed owns its log file name and nothing else is allocated
(`api_owned`); it is what `mr_create` was given until it is destroyed, whatever the user does with the attributes and the
texts (`api_deep_copy`). Attributes that have been initialised stay valid as long as the user leaves them to the setters
(`api_attr_valid`).
-/

namespace MrLib

open Conc

/-! ## Memory -/

/-- `mr_attr_t` in memory, `log_file` being a pointer or `NULL`. -/
structure AttrMem (ptr : Type) where
  mapperThreads : Fin sizeT
  reducerThreads : Fin sizeT
  queueSize : Fin sizeT
  logFile : Option ptr

/-- The attributes, read where the pointer points to. -/
def AttrMem.read {ptr : Type} (text : ptr → Option Bytes) (a : AttrMem ptr) : MrAttr where
  mapperThreads := a.mapperThreads
  reducerThreads := a.reducerThreads
  queueSize := a.queueSize
  logFile := a.logFile.bind text
  mapperThreads_lt := a.mapperThreads.isLt
  reducerThreads_lt := a.reducerThreads.isLt
  queueSize_lt := a.queueSize.isLt

/-- What the `log_file` of a user's attributes points to. -/
inductive TextPtr
  /-- `MR_DEFAULT_LOG_FILE` -/
  | default
  /-- A text of the user. -/
  | user (i : Nat)

/-- `struct mr`, whose `attr.log_file` is a block. The functions and their argument are addresses. -/
structure Execution where
  attr : AttrMem Nat
  mapper : Nat
  reducer : Nat
  userArg : Nat

/-- A block that the library has allocated. -/
inductive Block
  /-- Nothing has been written yet. -/
  | raw
  | mr (x : Execution)
  | text (bs : Bytes)

inductive Errno
  | einval
  | enomem

/-- The variables of type `mr_attr_t` and `mr_t`, the texts of the user, and the blocks of the library. -/
structure ApiState where
  attrs : Nat → AttrMem TextPtr
  handles : Nat → Option Nat
  texts : Nat → Bytes
  blocks : Nat → Option Block
  errno : Option Errno

/-- `MR_DEFAULT_LOG_FILE` -/
def mrDefaultLogFile : Bytes := [109, 114, 46, 108, 111, 103]

namespace ApiState

def text (s : ApiState) : TextPtr → Option Bytes
  | .default => some mrDefaultLogFile
  | .user i => some (s.texts i)

/-- The text in a block. -/
def blockText (s : ApiState) (b : Nat) : Option Bytes :=
  match s.blocks b with
  | some (.text bs) => some bs
  | _ => none

def setAttr (s : ApiState) (i : Nat) (a : AttrMem TextPtr) : ApiState := { s with attrs := Function.update s.attrs i a }

def setHandle (s : ApiState) (i : Nat) (b : Option Nat) : ApiState :=
  { s with handles := Function.update s.handles i b }

def setBlock (s : ApiState) (b : Nat) (x : Option Block) : ApiState := { s with blocks := Function.update s.blocks b x }

/-- `errno = ...; return -1;` -/
def fails (s : ApiState) (e : Errno) : Int × ApiState := (-1, { s with errno := some e })

end ApiState

/-! ## The functions -/

theorem four_lt_sizeT : 4 < sizeT := by decide

theorem hundred_lt_sizeT : 100 < sizeT := by decide

/-- `mr_attr_init`, with the defaults of `config.h`. An `mr_attr_t*` is a variable or `NULL`. -/
def mrAttrInit (s : ApiState) : Option Nat → Int × ApiState
  | none => s.fails .einval
  | some i => (0, s.setAttr i {
      mapperThreads := ⟨4, four_lt_sizeT⟩
      reducerThreads := ⟨4, four_lt_sizeT⟩
      queueSize := ⟨100, hundred_lt_sizeT⟩
      logFile := some .default })

/-- A setter: `ok` is what its check says of the new value, and `f` sets the field. -/
def mrAttrSet (s : ApiState) (attr : Option Nat) (ok : Bool) (f : AttrMem TextPtr → AttrMem TextPtr) : Int × ApiState :=
  match attr with
  | none => s.fails .einval
  | some i => if ok then (0, s.setAttr i (f (s.attrs i))) else s.fails .einval

/-- `mr_attr_set_mapper_threads` -/
def mrAttrSetMapperThreads (s : ApiState) (attr : Option Nat) (n : Fin sizeT) : Int × ApiState :=
  mrAttrSet s attr (mrAttrCheckMapperThreads n) fun a => { a with mapperThreads := n }

/-- `mr_attr_set_reducer_threads` -/
def mrAttrSetReducerThreads (s : ApiState) (attr : Option Nat) (n : Fin sizeT) : Int × ApiState :=
  mrAttrSet s attr (mrAttrCheckReducerThreads n) fun a => { a with reducerThreads := n }

/-- `mr_attr_set_queue_size` -/
def mrAttrSetQueueSize (s : ApiState) (attr : Option Nat) (n : Fin sizeT) : Int × ApiState :=
  mrAttrSet s attr (mrAttrCheckQueueSize n) fun a => { a with queueSize := n }

/-- `mr_attr_set_log_file`, with a text of the user or `NULL`. -/
def mrAttrSetLogFile (s : ApiState) (attr path : Option Nat) : Int × ApiState :=
  mrAttrSet s attr (mrAttrCheckLogFile (path.map s.texts)) fun a =>
    { a with logFile := some (path.elim .default .user) }

/-- `mr_attr_destroy` -/
def mrAttrDestroy (s : ApiState) : Option Nat → Int × ApiState
  | none => s.fails .einval
  | some _ => (0, s)

/-- `mr_init`; `copy` is what `strdup` returns. A `log_file` that is `NULL` is not checked before. -/
def mrInit (s : ApiState) (mr : Nat) (attr : AttrMem TextPtr) (mapper reducer userArg : Nat) (copy : Option Nat) :
    Option (Int × ApiState) :=
  match attr.logFile.bind s.text with
  | none => none
  | some name =>
    match copy with
    | none => some (s.fails .enomem)
    | some c =>
      if (s.blocks c).isSome then none
      else
        let x : Execution := ⟨{ attr with logFile := some c }, mapper, reducer, userArg⟩
        some (0, (s.setBlock c (some (.text name))).setBlock mr (some (.mr x)))

/-- `mr_create`; `block` is what `malloc` returns, and `h` the variable that `mr` points to. A function is an address or
`NULL`. -/
def mrCreate (s : ApiState) (h : Nat) (attr mapper reducer : Option Nat) (userArg : Nat) (block copy : Option Nat) :
    Option (Int × ApiState) :=
  match attr, mapper, reducer with
  | some i, some mapper, some reducer =>
    if !mrAttrCheck ((s.attrs i).read s.text) then some (s.fails .einval)
    else
      match block with
      | none => some ((s.setHandle h none).fails .enomem)
      | some b =>
        if (s.blocks b).isSome then none
        else
          match mrInit ((s.setHandle h (some b)).setBlock b (some .raw)) b (s.attrs i) mapper reducer userArg copy with
          | none => none
          | some (r, s) => some (if r = -1 then (-1, s.setBlock b none) else (0, s))
  | _, _, _ => some (s.fails .einval)

/-- `free` -/
def free (s : ApiState) : Option Nat → Option ApiState
  | none => some s
  | some b => if (s.blocks b).isSome then some (s.setBlock b none) else none

/-- `mr_cleanup` -/
def mrCleanup (s : ApiState) (mr : Nat) : Option ApiState :=
  match s.blocks mr with
  | some (.mr x) => free s x.attr.logFile
  | _ => none

/-- `mr_destroy` of what is in a variable, which keeps its value. -/
def mrDestroy (s : ApiState) (h : Nat) : Option (Int × ApiState) :=
  match s.handles h with
  | none => some (0, s)
  | some b => (mrCleanup s b).bind fun s => (free s (some b)).map fun s => (0, s)

/-! ## The calls of a user -/

inductive ApiCall
  | attrInit (attr : Option Nat)
  | setMapperThreads (attr : Option Nat) (n : Fin sizeT)
  | setReducerThreads (attr : Option Nat) (n : Fin sizeT)
  | setQueueSize (attr : Option Nat) (n : Fin sizeT)
  | setLogFile (attr path : Option Nat)
  | attrDestroy (attr : Option Nat)
  | create (h : Nat) (attr mapper reducer : Option Nat) (userArg : Nat) (block copy : Option Nat)
  | destroy (h : Nat)
  /-- Not a call: the user writes a text of its own. -/
  | write (i : Nat) (bs : Bytes)
  /-- Not a call: the user writes the fields of an `mr_attr_t`. -/
  | assign (i : Nat) (a : AttrMem TextPtr)
  /-- Not a call: the user sets an `mr_t` variable to another, or to `NULL`. -/
  | move (h : Nat) (b : Option Nat)

/-- What a call returns and leaves; `none` if it is undefined. -/
def ApiState.call (s : ApiState) : ApiCall → Option (Int × ApiState)
  | .attrInit attr => some (mrAttrInit s attr)
  | .setMapperThreads attr n => some (mrAttrSetMapperThreads s attr n)
  | .setReducerThreads attr n => some (mrAttrSetReducerThreads s attr n)
  | .setQueueSize attr n => some (mrAttrSetQueueSize s attr n)
  | .setLogFile attr path => some (mrAttrSetLogFile s attr path)
  | .attrDestroy attr => some (mrAttrDestroy s attr)
  | .create h attr mapper reducer userArg block copy => mrCreate s h attr mapper reducer userArg block copy
  | .destroy h => mrDestroy s h
  | .write i bs => some (0, { s with texts := Function.update s.texts i bs })
  | .assign i a => some (0, s.setAttr i a)
  | .move h b => some (0, s.setHandle h b)

/-- The calls from a state on. -/
def api (s : ApiState) : Lts ApiState ApiCall where
  init := s
  step s c := (s.call c).map Prod.snd

/-- It destroys the execution `b`. -/
def ApiCall.destroys (c : ApiCall) (s : ApiState) (b : Nat) : Prop := ∃ h, c = .destroy h ∧ s.handles h = some b

/-! ## What a call does to the memory -/

section Calls

variable {s s' : ApiState} {c : ApiCall} {r : Int} {b : Nat}

/-- An execution is created in the block `b`, with a copy of the name in another. -/
structure Creates (s : ApiState) (h i mapper reducer userArg b : Nat) (s' : ApiState) : Prop where
  check : mrAttrCheck ((s.attrs i).read s.text) = true
  handle : s'.handles h = some b
  free : s.blocks b = none
  copy : ∃ p name, p ≠ b ∧ s.blocks p = none ∧ (s.attrs i).logFile.bind s.text = some name ∧
    s'.blocks = Function.update (Function.update s.blocks p (some (.text name))) b
      (some (.mr ⟨{ s.attrs i with logFile := some p }, mapper, reducer, userArg⟩))

/-- The execution in the block `b` and its name are freed. -/
structure Frees (s : ApiState) (b : Nat) (s' : ApiState) : Prop where
  freed : ∃ x, s.blocks b = some (.mr x) ∧
    (x.attr.logFile = none ∧ s'.blocks = Function.update s.blocks b none ∨
      ∃ p, x.attr.logFile = some p ∧ p ≠ b ∧ (s.blocks p).isSome = true ∧
        s'.blocks = Function.update (Function.update s.blocks p none) b none)

theorem mrAttrSet_blocks (s : ApiState) (attr : Option Nat) (ok : Bool) (f : AttrMem TextPtr → AttrMem TextPtr) :
    (mrAttrSet s attr ok f).2.blocks = s.blocks := by
  cases attr with
  | none => rfl
  | some i =>
    unfold mrAttrSet
    split
    · rfl
    · split <;> rfl

/-- `mr_init` copies the name, or fails. -/
theorem mrInit_cases {mr : Nat} {attr : AttrMem TextPtr} {mapper reducer userArg : Nat} {copy : Option Nat}
    (h : mrInit s mr attr mapper reducer userArg copy = some (r, s')) :
    ∃ name, attr.logFile.bind s.text = some name ∧ (r = -1 ∧ s'.blocks = s.blocks ∨ r = 0 ∧ ∃ p, s.blocks p = none ∧
      s' = (s.setBlock p (some (.text name))).setBlock mr
        (some (.mr ⟨{ attr with logFile := some p }, mapper, reducer, userArg⟩))) := by
  unfold mrInit at h
  split at h
  · cases h
  · rename_i name hname
    refine ⟨name, hname, ?_⟩
    split at h
    · cases h
      exact .inl ⟨rfl, rfl⟩
    · rename_i p
      split at h
      · cases h
      · rename_i hp
        cases h
        exact .inr ⟨rfl, p, by simpa using hp, rfl⟩

/-- `mr_create` creates an execution, or fails and leaves the memory as it was. -/
theorem mrCreate_cases {h : Nat} {attr mapper reducer : Option Nat} {userArg : Nat} {block copy : Option Nat}
    (hc : mrCreate s h attr mapper reducer userArg block copy = some (r, s')) :
    r = -1 ∧ s'.blocks = s.blocks ∨ r = 0 ∧ ∃ i m f b, attr = some i ∧ mapper = some m ∧ reducer = some f ∧
      Creates s h i m f userArg b s' := by
  unfold mrCreate at hc
  split at hc
  · rename_i i m f
    split at hc
    · cases hc
      exact .inl ⟨rfl, rfl⟩
    · rename_i hcheck
      split at hc
      · cases hc
        exact .inl ⟨rfl, rfl⟩
      · rename_i b
        split at hc
        · cases hc
        · rename_i hb
          have hb : s.blocks b = none := by simpa using hb
          have hback : Function.update (Function.update s.blocks b (some .raw)) b none = s.blocks := by
            rw [Function.update_idem, ← hb, Function.update_eq_self]
          split at hc
          · cases hc
          · rename_i r' t hinit
            obtain ⟨name, hname, ⟨rfl, ht⟩ | ⟨rfl, p, hp, rfl⟩⟩ := mrInit_cases hinit
            · cases hc
              refine .inl ⟨rfl, ?_⟩
              show Function.update t.blocks b none = s.blocks
              rw [ht]
              exact hback
            · cases hc
              have hpb : p ≠ b := by
                rintro rfl
                simp [ApiState.setBlock] at hp
              refine .inr ⟨rfl, i, m, f, b, rfl, rfl, rfl, by simpa using hcheck, by simp [ApiState.setBlock,
                ApiState.setHandle], hb, p, name, hpb, ?_, hname, ?_⟩
              · simpa [ApiState.setBlock, ApiState.setHandle, hpb] using hp
              · simp only [ApiState.setBlock, ApiState.setHandle]
                rw [Function.update_comm hpb, Function.update_idem, Function.update_comm hpb.symm]
  · cases hc
    exact .inl ⟨rfl, rfl⟩

/-- `mr_destroy` frees an execution, or has none. -/
theorem mrDestroy_cases {h : Nat} (hc : mrDestroy s h = some (r, s')) :
    r = 0 ∧ (s.handles h = none ∧ s' = s ∨ ∃ b, s.handles h = some b ∧ Frees s b s') := by
  unfold mrDestroy at hc
  split at hc
  · rename_i hn
    cases hc
    exact ⟨rfl, .inl ⟨hn, rfl⟩⟩
  · rename_i b hb
    obtain ⟨s1, hclean, hc⟩ := Option.bind_eq_some_iff.mp hc
    obtain ⟨s2, hfree, hc⟩ := Option.map_eq_some_iff.mp hc
    cases hc
    refine ⟨rfl, .inr ⟨b, hb, ?_⟩⟩
    unfold mrCleanup at hclean
    split at hclean
    · rename_i x hx
      refine ⟨x, hx, ?_⟩
      simp only [free] at hfree
      split at hfree
      · rename_i hsome
        cases hfree
        cases hl : x.attr.logFile with
        | none =>
          rw [hl] at hclean
          cases hclean
          exact .inl ⟨rfl, rfl⟩
        | some p =>
          rw [hl] at hclean
          simp only [free] at hclean
          split at hclean
          · rename_i hp
            cases hclean
            refine .inr ⟨p, rfl, ?_, hp, rfl⟩
            rintro rfl
            simp [ApiState.setBlock] at hsome
          · cases hclean
      · cases hfree
    · cases hclean

/-- **What a call does to the blocks.** -/
theorem call_cases (hc : s.call c = some (r, s')) : s'.blocks = s.blocks ∨
    (∃ h i m f userArg b, Creates s h i m f userArg b s') ∨ ∃ b, c.destroys s b ∧ Frees s b s' := by
  cases c with
  | create h attr mapper reducer userArg block copy =>
    rcases mrCreate_cases hc with ⟨-, hb⟩ | ⟨-, i, m, f, b, -, -, -, hb⟩
    · exact .inl hb
    · exact .inr (.inl ⟨h, i, m, f, userArg, b, hb⟩)
  | destroy h =>
    rcases (mrDestroy_cases hc).2 with ⟨-, rfl⟩ | ⟨b, hb, hf⟩
    · exact .inl rfl
    · exact .inr (.inr ⟨b, ⟨h, rfl, hb⟩, hf⟩)
  | attrInit attr | attrDestroy attr =>
    cases attr <;> cases hc <;> exact .inl rfl
  | write i bs | assign i a | move h b =>
    cases hc
    exact .inl rfl
  | _ =>
    obtain rfl := congrArg Prod.snd (Option.some.inj hc)
    exact .inl (mrAttrSet_blocks _ _ _ _)

end Calls

/-! ## Executions -/

/-- What an execution is: its attributes, with the name in the memory, its functions and their argument. -/
structure ExecutionView where
  attr : MrAttr
  mapper : Nat
  reducer : Nat
  userArg : Nat

/-- What `mr_start` passes on: a name for the log file, and arguments that `mapper_process_main` and
`reducer_process_main` may have. -/
def ExecutionView.Startable (v : ExecutionView) : Prop :=
  ∃ (name : Bytes) (mapper reducer : PoolArgs), v.attr.logFile = some name ∧
    mapper.threads = v.attr.mapperThreads ∧ mapper.queueSize = v.attr.queueSize ∧
    reducer.threads = v.attr.reducerThreads ∧ reducer.queueSize = v.attr.queueSize

/-- The execution in the block `b`. -/
def ApiState.execution (s : ApiState) (b : Nat) : Option ExecutionView :=
  match s.blocks b with
  | some (.mr x) => some ⟨x.attr.read s.blockText, x.mapper, x.reducer, x.userArg⟩
  | _ => none

/-- **Every execution owns its log file name**, in a block of its own, and its attributes are valid; and nothing else is
allocated. -/
structure ApiState.Owned (s : ApiState) : Prop where
  mr : ∀ b x, s.blocks b = some (.mr x) → mrAttrCheck (x.attr.read s.blockText) = true ∧
    ∃ p name, x.attr.logFile = some p ∧ s.blocks p = some (.text name)
  text : ∀ p name, s.blocks p = some (.text name) → ∃ b x, s.blocks b = some (.mr x) ∧ x.attr.logFile = some p
  unique : ∀ b b' x x' p, s.blocks b = some (.mr x) → s.blocks b' = some (.mr x') → x.attr.logFile = some p →
    x'.attr.logFile = some p → b = b'
  raw : ∀ b, s.blocks b ≠ some .raw

section Owned

variable {s s' : ApiState} {c : ApiCall} {r : Int} {b : Nat}

theorem ApiState.Owned.init (h : ∀ b, s.blocks b = none) : s.Owned where
  mr b x hb := by simp [h] at hb
  text p name hp := by simp [h] at hp
  unique b b' x x' p hb := by simp [h] at hb
  raw b := by simp [h]

/-- The check does not look at the name. -/
theorem mrAttrCheck_read {P P' : Type} {text : P → Option Bytes} {text' : P' → Option Bytes} {a : AttrMem P}
    {a' : AttrMem P'} (h : mrAttrCheck (a.read text) = true) (h1 : a'.mapperThreads = a.mapperThreads)
    (h2 : a'.reducerThreads = a.reducerThreads) (h3 : a'.queueSize = a.queueSize) :
    mrAttrCheck (a'.read text') = true := by
  rw [← h]
  simp [mrAttrCheck, AttrMem.read, h1, h2, h3, mrAttrCheckLogFile]

/-- What is in the blocks when an execution has been created. -/
theorem Creates.get {i j m f userArg : Nat} (hc : Creates s i j m f userArg b s') : ∃ p name, p ≠ b ∧
    s.blocks p = none ∧ (s.attrs j).logFile.bind s.text = some name ∧ ∀ q, s'.blocks q =
      if q = b then some (.mr ⟨{ s.attrs j with logFile := some p }, m, f, userArg⟩)
      else if q = p then some (.text name) else s.blocks q := by
  obtain ⟨p, name, hpb, hp, hname, hblocks⟩ := hc.copy
  refine ⟨p, name, hpb, hp, hname, fun q => ?_⟩
  rw [hblocks, Function.update_apply, Function.update_apply]

theorem ApiState.Owned.creates (h : s.Owned) {i j m f userArg : Nat} (hc : Creates s i j m f userArg b s') : s'.Owned := by
  obtain ⟨p, name, hpb, hp, -, hget⟩ := hc.get
  have hfree := hc.free
  -- an execution of the new state is the one created, or an old one
  have hmr : ∀ b' x', s'.blocks b' = some (.mr x') → b' = b ∧ x'.attr.logFile = some p ∧
      mrAttrCheck (x'.attr.read s'.blockText) = true ∨ b' ≠ b ∧ s.blocks b' = some (.mr x') := by
    intro b' x' hb'
    rw [hget] at hb'
    split at hb'
    · rename_i he
      cases hb'
      exact .inl ⟨he, rfl, mrAttrCheck_read hc.check rfl rfl rfl⟩
    · rename_i hne
      split at hb'
      · cases hb'
      · exact .inr ⟨hne, hb'⟩
  have htext : ∀ q name', s.blocks q = some (.text name') → s'.blocks q = some (.text name') := by
    intro q name' hq
    rw [hget, if_neg (by rintro rfl; simp [hfree] at hq), if_neg (by rintro rfl; simp [hp] at hq)]
    exact hq
  have hold : ∀ q x', s.blocks q = some (.mr x') → s'.blocks q = some (.mr x') := by
    intro q x' hq
    rw [hget, if_neg (by rintro rfl; simp [hfree] at hq), if_neg (by rintro rfl; simp [hp] at hq)]
    exact hq
  refine ⟨fun b' x' hb' => ?_, fun q name' hq => ?_, fun b1 b2 x1 x2 q h1 h2 hq1 hq2 => ?_, fun q hq => ?_⟩
  · rcases hmr b' x' hb' with ⟨-, hl, hcheck⟩ | ⟨-, hb'⟩
    · exact ⟨hcheck, p, name, hl, by rw [hget, if_neg hpb, if_pos rfl]⟩
    · obtain ⟨hcheck, q, name', hq, hname'⟩ := h.mr b' x' hb'
      exact ⟨mrAttrCheck_read hcheck rfl rfl rfl, q, name', hq, htext q name' hname'⟩
  · rw [hget] at hq
    split at hq
    · cases hq
    · split at hq
      · rename_i he
        exact ⟨b, _, by rw [hget, if_pos rfl], by rw [he]⟩
      · obtain ⟨b', x', hb', hl⟩ := h.text q name' hq
        exact ⟨b', x', hold b' x' hb', hl⟩
  · have hnew : ∀ b' x', s.blocks b' = some (.mr x') → x'.attr.logFile ≠ some p := by
      intro b' x' hb' hl
      obtain ⟨-, q, name', hq, hname'⟩ := h.mr b' x' hb'
      rw [hl] at hq
      cases hq
      rw [hp] at hname'
      cases hname'
    rcases hmr b1 x1 h1 with ⟨rfl, hl1, -⟩ | ⟨-, h1⟩ <;> rcases hmr b2 x2 h2 with ⟨rfl, hl2, -⟩ | ⟨-, h2⟩
    · rfl
    · exact absurd (hq2.trans (hq1.symm.trans hl1)) (hnew b2 x2 h2)
    · exact absurd (hq1.trans (hq2.symm.trans hl2)) (hnew b1 x1 h1)
    · exact h.unique b1 b2 x1 x2 q h1 h2 hq1 hq2
  · rw [hget] at hq
    split at hq
    · cases hq
    · split at hq
      · cases hq
      · exact h.raw q hq

/-- What is in the blocks when an execution has been destroyed. -/
theorem ApiState.Owned.freed (h : s.Owned) (hf : Frees s b s') : ∃ x p, s.blocks b = some (.mr x) ∧
    x.attr.logFile = some p ∧ ∀ q, s'.blocks q = if q = b ∨ q = p then none else s.blocks q := by
  obtain ⟨x, hx, hcases⟩ := hf.freed
  obtain ⟨-, p, name, hl, -⟩ := h.mr b x hx
  rcases hcases with ⟨hn, -⟩ | ⟨p', hl', -, -, hblocks⟩
  · rw [hn] at hl
    cases hl
  · rw [hl] at hl'
    cases hl'
    refine ⟨x, p, hx, hl, fun q => ?_⟩
    rw [hblocks, Function.update_apply, Function.update_apply]
    by_cases hq : q = b <;> by_cases hq' : q = p <;> simp [hq, hq']

theorem ApiState.Owned.frees (h : s.Owned) (hf : Frees s b s') : s'.Owned := by
  obtain ⟨x, p, hx, hl, hget⟩ := h.freed hf
  have hold : ∀ q y, s'.blocks q = some y → q ≠ b ∧ q ≠ p ∧ s.blocks q = some y := by
    intro q y hq
    rw [hget] at hq
    split at hq
    · cases hq
    · rename_i hne
      exact ⟨fun he => hne (.inl he), fun he => hne (.inr he), hq⟩
  refine ⟨fun b' x' hb' => ?_, fun q name' hq => ?_, fun b1 b2 x1 x2 q h1 h2 => ?_, fun q hq => ?_⟩
  · obtain ⟨hne, -, hb'⟩ := hold b' _ hb'
    obtain ⟨hcheck, q, name', hq, hname'⟩ := h.mr b' x' hb'
    refine ⟨mrAttrCheck_read hcheck rfl rfl rfl, q, name', hq, ?_⟩
    rw [hget, if_neg, hname']
    rintro (rfl | rfl)
    · rw [hx] at hname'
      cases hname'
    · exact hne (h.unique b' b x' x q hb' hx hq hl)
  · obtain ⟨-, hne, hq⟩ := hold q _ hq
    obtain ⟨b', x', hb', hl'⟩ := h.text q name' hq
    refine ⟨b', x', ?_, hl'⟩
    rw [hget, if_neg, hb']
    rintro (rfl | rfl)
    · rw [hx] at hb'
      cases hb'
      rw [hl] at hl'
      exact hne (Option.some.inj hl').symm
    · obtain ⟨-, p', name', hp', hname'⟩ := h.mr b x hx
      rw [hl] at hp'
      cases hp'
      rw [hname'] at hb'
      cases hb'
  · exact h.unique b1 b2 x1 x2 q (hold b1 _ h1).2.2 (hold b2 _ h2).2.2
  · exact h.raw q (hold q _ hq).2.2

/-- Every call keeps this. -/
theorem ApiState.Owned.call (h : s.Owned) (hc : s.call c = some (r, s')) : s'.Owned := by
  rcases call_cases hc with hb | ⟨i, j, m, f, userArg, b, hcr⟩ | ⟨b, -, hf⟩
  · have htext : s'.blockText = s.blockText := by
      funext q
      simp only [ApiState.blockText, hb]
    obtain ⟨h1, h2, h3, h4⟩ := h
    constructor
    · rw [hb, htext]
      exact h1
    · rw [hb]
      exact h2
    · rw [hb]
      exact h3
    · rw [hb]
      exact h4
  · exact h.creates hcr
  · exact h.frees hf

/-- Attributes read the same if their name does. -/
theorem AttrMem.read_congr {P : Type} {text text' : P → Option Bytes} {a : AttrMem P}
    (h : ∀ p ∈ a.logFile, text' p = text p) : a.read text' = a.read text := by
  obtain ⟨m, f, q, l⟩ := a
  cases l with
  | none => rfl
  | some p =>
    have hp : text' p = text p := h p rfl
    simp [AttrMem.read, hp]

theorem execution_eq_some {v : ExecutionView} : s.execution b = some v ↔ ∃ x, s.blocks b = some (.mr x) ∧
    v = ⟨x.attr.read s.blockText, x.mapper, x.reducer, x.userArg⟩ := by
  unfold ApiState.execution
  constructor
  · intro h
    split at h
    · rename_i x hx
      cases h
      exact ⟨x, hx, rfl⟩
    · cases h
  · rintro ⟨x, hx, rfl⟩
    rw [hx]

/-- An execution whose blocks are as they were. -/
theorem execution_same {v : ExecutionView} (hv : s.execution b = some v)
    (hb : s'.blocks b = s.blocks b)
    (hp : ∀ x p, s.blocks b = some (.mr x) → x.attr.logFile = some p → s'.blocks p = s.blocks p) :
    s'.execution b = some v := by
  obtain ⟨x, hx, rfl⟩ := execution_eq_some.mp hv
  refine execution_eq_some.mpr ⟨x, hb.trans hx, ?_⟩
  have : x.attr.read s'.blockText = x.attr.read s.blockText := AttrMem.read_congr fun p hl => by
    simp only [ApiState.blockText, hp x p hx (Option.mem_def.mp hl)]
  rw [this]

theorem ApiState.Owned.frees_execution (h : s.Owned) (hf : Frees s b s') :
    s'.execution b = none ∧ ∀ b' v, b' ≠ b → s.execution b' = some v → s'.execution b' = some v := by
  obtain ⟨x, p, hx, hl, hget⟩ := h.freed hf
  refine ⟨by simp [ApiState.execution, hget], fun b' v hne hv => ?_⟩
  obtain ⟨-, p', name, hl', hname⟩ := h.mr b x hx
  rw [hl] at hl'
  cases hl'
  obtain ⟨x', hx', -⟩ := execution_eq_some.mp hv
  have hbp : b' ≠ p := by
    rintro rfl
    rw [hx'] at hname
    cases hname
  refine execution_same hv (by simp [hget, hne, hbp]) fun y q hy hq => ?_
  rw [hget, if_neg]
  rintro (rfl | rfl)
  · obtain ⟨-, q', name', hq', hname'⟩ := h.mr b' y hy
    rw [hq] at hq'
    cases hq'
    rw [hx] at hname'
    cases hname'
  · exact hne (h.unique b' b y x q hy hx hq hl)

theorem ApiState.Owned.creates_execution (h : s.Owned) {i j m f userArg : Nat} (hc : Creates s i j m f userArg b s') :
    s'.execution b = some ⟨(s.attrs j).read s.text, m, f, userArg⟩ ∧
      ∀ b' v, s.execution b' = some v → s'.execution b' = some v := by
  obtain ⟨p, name, hpb, hp, hname, hget⟩ := hc.get
  constructor
  · refine execution_eq_some.mpr ⟨_, by rw [hget, if_pos rfl], ?_⟩
    have htext : s'.blockText p = some name := by
      simp only [ApiState.blockText]
      rw [hget, if_neg hpb, if_pos rfl]
    simp [AttrMem.read, hname, htext]
  · intro b' v hv
    obtain ⟨x', hx', -⟩ := execution_eq_some.mp hv
    have hkeep : ∀ q y, s.blocks q = some y → s'.blocks q = s.blocks q := by
      intro q y hq
      rw [hget, if_neg (by rintro rfl; simp [hc.free] at hq), if_neg (by rintro rfl; simp [hp] at hq)]
    refine execution_same hv (hkeep b' _ hx') fun y q hy hq => ?_
    obtain ⟨-, q', name', hq', hname'⟩ := h.mr b' y hy
    rw [hq] at hq'
    cases hq'
    exact hkeep q _ hname'

theorem ApiState.Owned.startable (h : s.Owned) {v : ExecutionView} (hv : s.execution b = some v) : v.Startable := by
  obtain ⟨x, hx, rfl⟩ := execution_eq_some.mp hv
  obtain ⟨hcheck, p, name, hl, hname⟩ := h.mr b x hx
  simp only [mrAttrCheck, Bool.and_eq_true] at hcheck
  obtain ⟨⟨⟨hm, hr⟩, hq⟩, -⟩ := hcheck
  have hm : 0 < x.attr.mapperThreads.val := of_decide_eq_true hm
  have hr : 0 < x.attr.reducerThreads.val := of_decide_eq_true hr
  have hq : 0 < x.attr.queueSize.val := of_decide_eq_true hq
  refine ⟨name, ⟨_, _, hm, hq, x.attr.mapperThreads.isLt, x.attr.queueSize.isLt⟩,
    ⟨_, _, hr, hq, x.attr.reducerThreads.isLt, x.attr.queueSize.isLt⟩, ?_, rfl, rfl, rfl, rfl⟩
  simp [AttrMem.read, hl, ApiState.blockText, hname]

/-- **A call leaves an execution alone** that it does not destroy. -/
theorem ApiState.Owned.keeps (h : s.Owned) (hc : s.call c = some (r, s')) (hd : ¬ c.destroys s b) {v : ExecutionView}
    (hv : s.execution b = some v) : s'.execution b = some v := by
  rcases call_cases hc with hb | ⟨i, j, m, f, userArg, b', hcr⟩ | ⟨b', hdb, hf⟩
  · exact execution_same hv (by rw [hb]) fun _ _ _ _ => by rw [hb]
  · exact (h.creates_execution hcr).2 b v hv
  · refine (h.frees_execution hf).2 b v ?_ hv
    rintro rfl
    exact hd hdb

end Owned

/-! ## Runs -/

section Runs

variable {s0 s : ApiState}

theorem owned_of_reach (h0 : s0.Owned) {P : ApiState → ApiCall → Prop} (h : Reach (api s0) P s) : s.Owned := by
  refine h.inv h0 fun s c s' hi _ hs => ?_
  obtain ⟨⟨r, t⟩, hc, rfl⟩ := Option.map_eq_some_iff.mp hs
  exact hi.call hc

/-- **After any calls** every execution owns its name and can be started, and nothing else is allocated. To destroy an
execution is defined, and leaves the others alone. -/
theorem api_owned (h0 : ∀ b, s0.blocks b = none) (h : Reach (api s0) (fun _ _ => True) s) :
    s.Owned ∧ ∀ b v, s.execution b = some v → v.Startable ∧ ∀ i, s.handles i = some b →
      ∃ s', s.call (.destroy i) = some (0, s') ∧ s'.execution b = none ∧
        ∀ b' v', b' ≠ b → s.execution b' = some v' → s'.execution b' = some v' := by
  have hO := owned_of_reach (.init h0) h
  refine ⟨hO, fun b v hv => ⟨hO.startable hv, fun i hh => ?_⟩⟩
  obtain ⟨x, hx, -⟩ := execution_eq_some.mp hv
  obtain ⟨-, p, name, hl, hname⟩ := hO.mr b x hx
  have hpb : b ≠ p := by
    rintro rfl
    rw [hx] at hname
    cases hname
  have hcall : ∃ s', s.call (.destroy i) = some (0, s') := by
    refine ⟨(s.setBlock p none).setBlock b none, ?_⟩
    simp [ApiState.call, mrDestroy, hh, mrCleanup, hx, hl, free, hname, ApiState.setBlock, hpb]
  obtain ⟨s', hs'⟩ := hcall
  rcases (mrDestroy_cases hs').2 with ⟨hn, -⟩ | ⟨b1, hb1, hf⟩
  · rw [hh] at hn
    cases hn
  · rw [hh] at hb1
    cases hb1
    exact ⟨s', hs', hO.frees_execution hf⟩

/-- **A deep copy.** What `mr_create` has created is what it was given, until it is destroyed, whatever else is called and
whatever the user does with the attributes and the texts. -/
theorem api_deep_copy (h0 : ∀ b, s0.blocks b = none) (h : Reach (api s0) (fun _ _ => True) s) {s1 : ApiState}
    {i j m f userArg : Nat} {block copy : Option Nat}
    (hc : s.call (.create i (some j) (some m) (some f) userArg block copy) = some (0, s1)) :
    ∃ b, s1.handles i = some b ∧ s.blocks b = none ∧ ∀ s', Reach (api s1) (fun s c => ¬ c.destroys s b) s' →
      s'.execution b = some ⟨(s.attrs j).read s.text, m, f, userArg⟩ := by
  have hO := owned_of_reach (.init h0) h
  have hcreate : mrCreate s i (some j) (some m) (some f) userArg block copy = some (0, s1) := hc
  rcases mrCreate_cases hcreate with ⟨h1, -⟩ | ⟨-, _, _, _, b, hj, hm, hf, hcr⟩
  · cases h1
  cases hj
  cases hm
  cases hf
  refine ⟨b, hcr.handle, hcr.free, fun s' hs' => ?_⟩
  have hv := (hO.creates_execution hcr).1
  refine (hs'.inv (I := fun t => t.Owned ∧ t.execution b = some ⟨(s.attrs j).read s.text, m, f, userArg⟩)
    ⟨hO.creates hcr, hv⟩ fun t c t' hi hd ht => ?_).2
  obtain ⟨⟨r, u⟩, hu, rfl⟩ := Option.map_eq_some_iff.mp ht
  exact ⟨hi.1.call hu, hi.1.keeps hu hd hi.2⟩

end Runs

/-! ## Attributes -/

/-- Attributes that `mr_create` accepts and can copy. -/
structure AttrMem.Valid {ptr : Type} (a : AttrMem ptr) : Prop where
  mapperThreads : mrAttrCheckMapperThreads a.mapperThreads = true
  reducerThreads : mrAttrCheckReducerThreads a.reducerThreads = true
  queueSize : mrAttrCheckQueueSize a.queueSize = true
  logFile : a.logFile ≠ none

section Attributes

variable {s s' : ApiState} {c : ApiCall} {r : Int} {i : Nat}

theorem AttrMem.Valid.check {ptr : Type} {text : ptr → Option Bytes} {a : AttrMem ptr} (h : a.Valid) :
    mrAttrCheck (a.read text) = true := by
  have h1 := h.mapperThreads
  have h2 := h.reducerThreads
  have h3 := h.queueSize
  simp [mrAttrCheck, AttrMem.read, h1, h2, h3, mrAttrCheckLogFile]

/-- A setter keeps valid attributes valid. -/
theorem mrAttrSet_valid {attr : Option Nat} {ok : Bool} {f : AttrMem TextPtr → AttrMem TextPtr}
    (hf : ok = true → ∀ a, a.Valid → (f a).Valid) (h : (s.attrs i).Valid) : ((mrAttrSet s attr ok f).2.attrs i).Valid := by
  cases attr with
  | none => exact h
  | some j =>
    cases ok with
    | false => exact h
    | true =>
      simp only [mrAttrSet, if_true, ApiState.setAttr, Function.update_apply]
      split
      · rename_i he
        exact hf rfl _ (he ▸ h)
      · exact h

theorem mrInit_attrs {mr : Nat} {attr : AttrMem TextPtr} {mapper reducer userArg : Nat} {copy : Option Nat}
    (h : mrInit s mr attr mapper reducer userArg copy = some (r, s')) : s'.attrs = s.attrs := by
  unfold mrInit at h
  split at h
  · cases h
  · split at h
    · cases h
      rfl
    · split at h <;> cases h
      rfl

theorem mrCreate_attrs {j : Nat} {attr mapper reducer : Option Nat} {userArg : Nat} {block copy : Option Nat}
    (h : mrCreate s j attr mapper reducer userArg block copy = some (r, s')) : s'.attrs = s.attrs := by
  unfold mrCreate at h
  split at h
  · split at h
    · cases h
      rfl
    · split at h
      · cases h
        rfl
      · split at h
        · cases h
        · split at h
          · cases h
          · rename_i hinit
            obtain rfl := congrArg Prod.snd (Option.some.inj h)
            have := mrInit_attrs hinit
            split <;> exact this
  · cases h
    rfl

theorem free_attrs {b : Option Nat} (h : free s b = some s') : s'.attrs = s.attrs := by
  cases b with
  | none =>
    cases h
    rfl
  | some b =>
    simp only [free] at h
    split at h <;> cases h
    rfl

theorem mrDestroy_attrs {j : Nat} (h : mrDestroy s j = some (r, s')) : s'.attrs = s.attrs := by
  unfold mrDestroy at h
  split at h
  · cases h
    rfl
  · obtain ⟨s1, hclean, h⟩ := Option.bind_eq_some_iff.mp h
    obtain ⟨s2, hfree, h⟩ := Option.map_eq_some_iff.mp h
    cases h
    unfold mrCleanup at hclean
    split at hclean
    · exact (free_attrs hfree).trans (free_attrs hclean)
    · cases hclean

theorem call_valid (hc : s.call c = some (r, s')) (ha : ∀ a, c ≠ .assign i a) (h : (s.attrs i).Valid) :
    (s'.attrs i).Valid := by
  cases c with
  | attrInit attr =>
    cases attr <;> cases hc
    · exact h
    · simp only [ApiState.setAttr, Function.update_apply]
      split
      · exact ⟨rfl, rfl, rfl, by simp⟩
      · exact h
  | setMapperThreads attr n =>
    obtain rfl := congrArg Prod.snd (Option.some.inj hc)
    exact mrAttrSet_valid (fun hok a h => { h with mapperThreads := hok }) h
  | setReducerThreads attr n =>
    obtain rfl := congrArg Prod.snd (Option.some.inj hc)
    exact mrAttrSet_valid (fun hok a h => { h with reducerThreads := hok }) h
  | setQueueSize attr n =>
    obtain rfl := congrArg Prod.snd (Option.some.inj hc)
    exact mrAttrSet_valid (fun hok a h => { h with queueSize := hok }) h
  | setLogFile attr path =>
    obtain rfl := congrArg Prod.snd (Option.some.inj hc)
    exact mrAttrSet_valid (fun hok a h => { h with logFile := by simp }) h
  | attrDestroy attr => cases attr <;> cases hc <;> exact h
  | create j attr mapper reducer userArg block copy =>
    have : s'.attrs = s.attrs := mrCreate_attrs hc
    rwa [this]
  | destroy j =>
    have : s'.attrs = s.attrs := mrDestroy_attrs hc
    rwa [this]
  | assign j a =>
    cases hc
    have hne : i ≠ j := fun he => ha a (he ▸ rfl)
    simpa [ApiState.setAttr, hne] using h
  | write j bs | move j b =>
    cases hc
    exact h

/-- `mr_create` on valid attributes, when there is memory. -/
theorem AttrMem.Valid.create (h : (s.attrs i).Valid) {j m f userArg b p : Nat} (hb : s.blocks b = none)
    (hp : s.blocks p = none) (hbp : p ≠ b) :
    ∃ s', s.call (.create j (some i) (some m) (some f) userArg (some b) (some p)) = some (0, s') := by
  obtain ⟨l, hl⟩ := Option.ne_none_iff_exists'.mp h.logFile
  obtain ⟨name, hname⟩ : ∃ name, s.text l = some name := by cases l <;> exact ⟨_, rfl⟩
  have hcopy : (s.attrs i).logFile.bind ((s.setHandle j (some b)).setBlock b (some .raw)).text = some name := by
    rw [hl]
    cases l <;> exact hname
  simp only [ApiState.call, mrCreate, h.check, hb, mrInit, hcopy]
  simp [ApiState.setBlock, ApiState.setHandle, hp, hbp]

/-- **Attributes stay valid** from `mr_attr_init` on, as long as the user leaves their fields to the setters, and
`mr_create` accepts them. -/
theorem api_attr_valid (s : ApiState) (i : Nat) {s' : ApiState}
    (h : Reach (api (mrAttrInit s (some i)).2) (fun _ c => ∀ a, c ≠ .assign i a) s') :
    mrAttrCheck ((s'.attrs i).read s'.text) = true ∧ ∀ j m f userArg b p, s'.blocks b = none → s'.blocks p = none →
      p ≠ b → ∃ s'', s'.call (.create j (some i) (some m) (some f) userArg (some b) (some p)) = some (0, s'') := by
  have hvalid : (s'.attrs i).Valid := by
    refine h.inv (I := fun t => (t.attrs i).Valid) ?_ fun t c t' hi ha ht => ?_
    · simp only [api, mrAttrInit, ApiState.setAttr, Function.update_self]
      exact ⟨rfl, rfl, rfl, by simp⟩
    · obtain ⟨⟨r, u⟩, hu, rfl⟩ := Option.map_eq_some_iff.mp ht
      exact call_valid hu ha hi
  exact ⟨hvalid.check, fun j m f userArg b p hb hp hbp => hvalid.create hb hp hbp⟩

/-- A `log_file` that is `NULL` passes the check, and `strdup` is called with it. -/
theorem create_null_undefined {j m f userArg b : Nat} {copy : Option Nat} (hcheck : mrAttrCheck ((s.attrs i).read s.text) = true)
    (hnull : (s.attrs i).logFile = none) (hb : s.blocks b = none) :
    s.call (.create j (some i) (some m) (some f) userArg (some b) copy) = none := by
  simp [ApiState.call, mrCreate, hcheck, hb, mrInit, hnull]

end Attributes

/-! ## A run -/

theorem zero_lt_sizeT : 0 < sizeT := by decide

/-- Nothing has been initialised or allocated. -/
def apiStart : ApiState where
  attrs _ := ⟨⟨0, zero_lt_sizeT⟩, ⟨0, zero_lt_sizeT⟩, ⟨0, zero_lt_sizeT⟩, none⟩
  handles _ := none
  texts _ := []
  blocks _ := none
  errno := none

/-- An execution with the first attributes, in the blocks 10 and 11. -/
def createFirst : ApiCall := .create 0 (some 0) (some 1) (some 2) 0 (some 10) (some 11)

/-- The attributes have been initialised, and then an execution has been created. -/
def apiInit : ApiState := (mrAttrInit apiStart (some 0)).2

def apiCreated : ApiState := ((apiInit.call createFirst).map Prod.snd).getD apiInit

theorem reach_apiInit : Reach (api apiStart) (fun _ _ => True) apiInit := .step .init trivial (a := .attrInit (some 0)) rfl

theorem apiCreated_eq : apiInit.call createFirst = some (0, apiCreated) := rfl

theorem reach_apiCreated : Reach (api apiStart) (fun _ _ => True) apiCreated :=
  .step reach_apiInit trivial (a := createFirst) rfl

theorem api_owned_created : ∃ s s' : ApiState, Reach (api apiStart) (fun _ _ => True) s ∧ s.Owned ∧
    s.call (.destroy 0) = some (0, s') ∧ s'.execution 10 = none := by
  obtain ⟨hO, hd⟩ := api_owned (fun _ => rfl) reach_apiCreated
  obtain ⟨s', hc, hn, -⟩ := (hd 10 _ rfl).2 0 rfl
  exact ⟨apiCreated, s', reach_apiCreated, hO, hc, hn⟩

theorem api_deep_copy_created : ∃ s' : ApiState, Reach (api apiCreated) (fun s c => ¬ c.destroys s 10) s' ∧
    (s'.attrs 0).mapperThreads.val = 0 ∧ (s'.execution 10).map (fun v => v.attr.mapperThreads) = some 4 := by
  obtain ⟨b, hb, -, hs⟩ := api_deep_copy (fun _ => rfl) reach_apiInit apiCreated_eq
  cases hb
  have hr : Reach (api apiCreated) (fun s c => ¬ c.destroys s 10) (apiCreated.setAttr 0 (apiStart.attrs 0)) := by
    refine .step .init ?_ (a := .assign 0 (apiStart.attrs 0)) rfl
    rintro ⟨h, he, -⟩
    cases he
  refine ⟨_, hr, rfl, ?_⟩
  rw [hs _ hr]
  rfl

theorem api_attr_valid_created : ∃ s' : ApiState, Reach (api apiInit) (fun _ c => ∀ a, c ≠ .assign 0 a) s' ∧
    mrAttrCheck ((s'.attrs 0).read s'.text) = true := by
  have hr : Reach (api apiInit) (fun _ c => ∀ a, c ≠ .assign 0 a) (mrAttrSetQueueSize apiInit (some 0) ⟨0, zero_lt_sizeT⟩).2 := by
    refine .step .init ?_ (a := .setQueueSize (some 0) ⟨0, zero_lt_sizeT⟩) rfl
    rintro a he
    cases he
  exact ⟨_, hr, (api_attr_valid apiStart 0 hr).1⟩

end MrLib
