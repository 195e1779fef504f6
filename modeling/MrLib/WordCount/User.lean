import MrLib.Lib.Pieces
import MrLib.Process.Calm
import MrLib.Protocol.ResultStream

/-!
# The functions of `word_count`

`word_count_mapper` and `word_count_reducer` of the example program, as programs that call `malloc`, `free` and the emit
function they are given. In `userEnv` any allocation and any emit may fail, a block is written within its bounds while it
is allocated, and it is freed once: `word_count_mapper` is correct there on every line (`wp_wordCountMapper`).

`UserProg.run` is what the process sees of such a program when `malloc` answers as `ok` says. If every allocation
succeeds, `word_count_mapper` emits the words of its line (`wordCountMapper_emits`).
-/

namespace MrLib

open Conc Prog

/-! ## Programs of a user -/

/-- The calls of a user's function. A block of memory is known by its number. -/
inductive UserCall
  | malloc (size : Nat)
  /-- Not a call: the bytes at the beginning of a block are written. -/
  | store (block : Nat) (bs : Bytes)
  /-- `emit(token, value, value_size, emit_arg)`. The token is at the beginning of `block`, or the function was called
  with it. -/
  | emit (block : Option Nat) (token value : Bytes)
  | free (block : Nat)

/-- What they return. -/
inductive UserRet
  | block (b : Option Nat)
  | int (r : Int)
  | done

abbrev UserProg (α : Type) := Prog UserCall UserRet α

/-- `malloc`: a block, or `NULL`. -/
def userMalloc (size : Nat) : UserProg (Option Nat) :=
  .call (.malloc size) fun
    | .block b => .ret b
    | _ => .ret none

def userStore (block : Nat) (bs : Bytes) : UserProg Unit := .call (.store block bs) fun _ => .ret ()

def userEmit (block : Option Nat) (token value : Bytes) : UserProg Int :=
  .call (.emit block token value) fun
    | .int r => .ret r
    | _ => .ret (-1)

def userFree (block : Nat) : UserProg Unit := .call (.free block) fun _ => .ret ()

/-- `isalnum`, in the locale that a program starts in. -/
def isalnum (c : UInt8) : Bool := 48 ≤ c && c ≤ 57 || 65 ≤ c && c ≤ 90 || 97 ≤ c && c ≤ 122

/-- `tolower` -/
def tolower (c : UInt8) : UInt8 := if 65 ≤ c && c ≤ 90 then c + 32 else c

/-- The loop of `word_count_mapper` from `rest` on, of at most `n` bytes. -/
def wordCountMapperLoop : Nat → Bytes → UserProg Int
  | 0, _ => return 0
  | n + 1, rest =>
    let curr := rest.dropWhile fun c => !isalnum c
    if curr = [] then return 0
    else do
      let tokenStart := curr.takeWhile isalnum
      let tokenLen := tokenStart.length
      match ← userMalloc ((tokenLen + 1) % sizeT) with
      | none => return -1
      | some block =>
        let token := tokenStart.map tolower
        userStore block (token ++ [0])
        if (← userEmit (some block) token []) = -1 then
          userFree block
          return -1
        userFree block
        wordCountMapperLoop n (curr.dropWhile isalnum)

/-- `word_count_mapper` -/
def wordCountMapper (line : FileLine) : UserProg Int := wordCountMapperLoop line.line.length line.line

/-- `word_count_reducer` -/
def wordCountReducer (token : Bytes) (values : List Bytes) : UserProg Int := userEmit none token (sizeBytes values.length)

/-- The words of a line: its longest pieces of letters and digits, in small letters. -/
def wordsOf (line : Bytes) : List Bytes := (pieces isalnum line).map (·.map tolower)

/-! ## Memory -/

/-- What a user's function works on: the blocks that are allocated with what is in them, what it has emitted, and whether
an allocation or an emit has failed. -/
structure UserMem where
  blocks : Nat → Option Bytes
  emitted : List (Bytes × Bytes)
  failed : Bool

def UserMem.set (s : UserMem) (b : Nat) (x : Option Bytes) : UserMem := { s with blocks := Function.update s.blocks b x }

/-- What a user's function may do and get. -/
def userEnv (s : UserMem) (c : UserCall) (r : UserRet) (s' : UserMem) : Prop :=
  match c with
  | .malloc n => r = .block none ∧ s' = { s with failed := true } ∨
      ∃ b bs, s.blocks b = none ∧ n ≤ ptrdiffMax ∧ bs.length = n ∧ r = .block (some b) ∧ s' = s.set b (some bs)
  | .store b bs => ∃ old, s.blocks b = some old ∧ bs.length ≤ old.length ∧ r = .done ∧
      s' = s.set b (some (bs ++ old.drop bs.length))
  | .emit block token value => (∀ b ∈ block, ∃ rest, s.blocks b = some (token ++ 0 :: rest)) ∧ (0 : UInt8) ∉ token ∧
      ∃ n, r = .int n ∧ s' = { s with emitted := s.emitted ++ [(token, value)], failed := s.failed || n == -1 }
  | .free b => (s.blocks b).isSome = true ∧ r = .done ∧ s' = s.set b none

section Memory

variable {s : UserMem} {α : Type} {Q : α → UserMem → Prop}

theorem wp_userMalloc {n : Nat} {k : Option Nat → UserProg α} (hnone : (k none).Wp userEnv Q { s with failed := true })
    (hblock : ∀ b bs, s.blocks b = none → bs.length = n → (k (some b)).Wp userEnv Q (s.set b (some bs))) :
    (userMalloc n >>= k).Wp userEnv Q s := by
  refine ⟨⟨.block none, _, .inl ⟨rfl, rfl⟩⟩, ?_⟩
  rintro _ _ (⟨rfl, rfl⟩ | ⟨b, bs, hb, -, hn, rfl, rfl⟩)
  · exact hnone
  · exact hblock b bs hb hn

theorem wp_userStore {b : Nat} {bs old : Bytes} {k : Unit → UserProg α} (ho : s.blocks b = some old)
    (hle : bs.length ≤ old.length) (h : (k ()).Wp userEnv Q (s.set b (some (bs ++ old.drop bs.length)))) :
    (userStore b bs >>= k).Wp userEnv Q s := by
  refine ⟨⟨.done, _, old, ho, hle, rfl, rfl⟩, ?_⟩
  rintro _ _ ⟨old', ho', -, rfl, rfl⟩
  rw [ho, Option.some.injEq] at ho'
  exact ho' ▸ h

theorem wp_userEmit {block : Option Nat} {token value : Bytes} {k : Int → UserProg α}
    (hb : ∀ b ∈ block, ∃ rest, s.blocks b = some (token ++ 0 :: rest)) (ht : (0 : UInt8) ∉ token)
    (h : ∀ n, (k n).Wp userEnv Q { s with emitted := s.emitted ++ [(token, value)], failed := s.failed || n == -1 }) :
    (userEmit block token value >>= k).Wp userEnv Q s := by
  refine ⟨⟨.int 0, _, hb, ht, 0, rfl, rfl⟩, ?_⟩
  rintro _ _ ⟨-, -, n, rfl, rfl⟩
  exact h n

theorem wp_userFree {b : Nat} {k : Unit → UserProg α} (hb : (s.blocks b).isSome = true)
    (h : (k ()).Wp userEnv Q (s.set b none)) : (userFree b >>= k).Wp userEnv Q s := by
  refine ⟨⟨.done, _, hb, rfl, rfl⟩, ?_⟩
  rintro _ _ ⟨-, rfl, rfl⟩
  exact h

end Memory

/-- How `word_count_mapper` ends, from `s`, when `words` were to come: the memory is as it was, and it has emitted all of
them, or has given up when something failed. -/
def WordsOut (s : UserMem) (words : List Bytes) (r : Int) (s' : UserMem) : Prop :=
  s'.blocks = s.blocks ∧
    (r = 0 ∧ s'.failed = s.failed ∧ s'.emitted = s.emitted ++ words.map (·, []) ∨
      r = -1 ∧ s'.failed = true ∧ ∃ k, s'.emitted = s.emitted ++ (words.take k).map (·, []))

theorem tolower_ne_zero {c : UInt8} (h : isalnum c = true) : tolower c ≠ 0 := by
  have hpos : 48 ≤ c.toNat := by
    simp only [isalnum, Bool.or_eq_true, Bool.and_eq_true, decide_eq_true_eq, UInt8.le_iff_toNat_le,
      UInt8.reduceToNat] at h
    omega
  rw [ne_eq, ← UInt8.toNat_inj]
  unfold tolower
  split
  · rename_i hc
    simp only [Bool.and_eq_true, decide_eq_true_eq, UInt8.le_iff_toNat_le, UInt8.reduceToNat] at hc
    simp only [UInt8.toNat_add, UInt8.reduceToNat]
    omega
  · simp only [UInt8.reduceToNat]
    omega

theorem nul_not_mem_lower {token : Bytes} (h : ∀ c ∈ token, isalnum c = true) : (0 : UInt8) ∉ token.map tolower := by
  intro hm
  obtain ⟨c, hc, h0⟩ := List.mem_map.mp hm
  exact tolower_ne_zero (h c hc) h0

/-- A word that has been emitted. -/
theorem WordsOut.cons {s s' : UserMem} {token : Bytes} {words : List Bytes} {r : Int}
    (h : WordsOut { s with emitted := s.emitted ++ [(token, [])] } words r s') : WordsOut s (token :: words) r s' := by
  obtain ⟨hb, ⟨hr, hf, he⟩ | ⟨hr, hf, k, he⟩⟩ := h
  · exact ⟨hb, .inl ⟨hr, hf, by simp [he]⟩⟩
  · exact ⟨hb, .inr ⟨hr, hf, k + 1, by simp [he]⟩⟩

/-- **The loop** of `word_count_mapper`. -/
theorem wp_wordCountMapperLoop : ∀ (n : Nat) (rest : Bytes) (s : UserMem), rest.length ≤ n → rest.length + 1 < sizeT →
    (wordCountMapperLoop n rest).Wp userEnv (WordsOut s (wordsOf rest)) s
  | 0, rest, s, hn, _ => by
    obtain rfl : rest = [] := List.eq_nil_of_length_eq_zero (by omega)
    exact ⟨rfl, .inl ⟨rfl, rfl, by simp [wordsOf, pieces_nil]⟩⟩
  | n + 1, rest, s, hn, hlen => by
    rw [wordCountMapperLoop]
    by_cases hend : (rest.dropWhile fun c => !isalnum c) = []
    · rw [if_pos hend]
      exact ⟨rfl, .inl ⟨rfl, rfl, by simp [wordsOf, pieces_end hend]⟩⟩
    rw [if_neg hend, wordsOf, pieces_next hend, List.map_cons, ← wordsOf]
    have hcurr : (rest.dropWhile fun c => !isalnum c).length ≤ rest.length := (List.dropWhile_suffix _).length_le
    have hrest := length_behind_lt hend
    generalize (rest.dropWhile fun c => !isalnum c) = curr at hcurr hend hrest ⊢
    have htoken : (curr.takeWhile isalnum).length ≤ curr.length := (List.takeWhile_prefix _).length_le
    have hnul := nul_not_mem_lower fun c hc => List.mem_takeWhile_imp (p := isalnum) (l := curr) hc
    refine wp_userMalloc ⟨rfl, .inr ⟨rfl, rfl, 0, by simp⟩⟩ fun b bs hb hbs => ?_
    rw [Nat.mod_eq_of_lt (by omega)] at hbs
    refine wp_userStore (Function.update_self ..) (by simp [hbs]) ?_
    refine wp_userEmit ?_ hnul fun r => ?_
    · rintro _ ⟨⟩
      exact ⟨bs.drop ((curr.takeWhile isalnum).map tolower ++ [0]).length, by simp [UserMem.set]⟩
    have hback : Function.update s.blocks b none = s.blocks := by rw [← hb, Function.update_eq_self]
    split
    · rename_i hr
      refine wp_userFree (by simp [UserMem.set]) ⟨?_, .inr ⟨rfl, ?_, 1, ?_⟩⟩
      · simp [UserMem.set, hback]
      · simp [UserMem.set, hr]
      · simp [UserMem.set]
    · rename_i hr
      refine wp_userFree (by simp [UserMem.set]) ?_
      have ih := wp_wordCountMapperLoop n (curr.dropWhile isalnum)
        { s with emitted := s.emitted ++ [((curr.takeWhile isalnum).map tolower, [])] } (by omega) (by omega)
      refine Wp.mono (fun _ _ => WordsOut.cons) ?_
      have hr : (r == -1) = false := by simpa using hr
      simpa [UserMem.set, hback, hr] using ih

/-- **`word_count_mapper`**, whichever allocations and emits fail. -/
theorem wp_wordCountMapper (line : FileLine) (h : line.line.length + 1 < sizeT) (s : UserMem) :
    (wordCountMapper line).Wp userEnv (WordsOut s (wordsOf line.line)) s :=
  wp_wordCountMapperLoop _ _ s (Nat.le_refl _) h

/-- The line `Xy, z`, with nothing allocated before. -/
theorem wp_wordCountMapper_words : ∃ s' r, Runs userEnv ⟨fun _ => none, [], false⟩
    (wordCountMapper ⟨[97], 1, [88, 121, 44, 32, 122]⟩) s' r ∧
      WordsOut ⟨fun _ => none, [], false⟩ [[120, 121], [122]] r s' :=
  (wp_wordCountMapper ⟨[97], 1, [88, 121, 44, 32, 122]⟩ (by decide) _).ends

/-! ## In the process -/

/-- A message with these bytes. -/
def msg? (token value : Bytes) : Option Msg :=
  if h : ((0 : UInt8) ∉ token ∧ token.length < ptrdiffMax) ∧ value.length ≤ ptrdiffMax then
    some ⟨⟨token, h.1.1, h.1.2⟩, ⟨value, h.2⟩⟩
  else none

theorem msg?_eq_some (token value : Bytes) (h0 : (0 : UInt8) ∉ token) (ht : token.length < ptrdiffMax)
    (hv : value.length ≤ ptrdiffMax) : ∃ m, msg? token value = some m ∧ m.fields = (token, value) :=
  ⟨_, dif_pos ⟨⟨h0, ht⟩, hv⟩, rfl⟩

/-- What the process sees of a user's function: its `i`th allocation and those after it succeed if `ok` says so, and they
are not too large for an object. What is emitted are a string and an object. -/
def UserProg.run (ok : Nat → Bool) : UserProg Int → Nat → User
  | .ret r, _ => .ret r
  | .call (.malloc n) k, i => run ok (k (.block (if n ≤ ptrdiffMax ∧ ok i then some i else none))) (i + 1)
  | .call (.store _ _) k, i => run ok (k .done) i
  | .call (.emit _ token value) k, i =>
    match msg? token value with
    | some m => .emit m fun r => run ok (k (.int r)) i
    | none => .ret (-1)
  | .call (.free _) k, i => run ok (k .done) i

/-- The functions of `word_count`. -/
def wordCount (ok : Sys → Nat → Bool) : Sys → User
  | .mapper line => UserProg.run (ok (.mapper line)) (wordCountMapper line) 0
  | .reducer token values => UserProg.run (ok (.reducer token values)) (wordCountReducer token values) 0
  | _ => .ret 0

section Run

variable {ok : Nat → Bool}

theorem wordCountMapperLoop_emits (hok : ∀ i, ok i = true) : ∀ (n i : Nat) (rest : Bytes), rest.length ≤ n →
    rest.length < ptrdiffMax → ((wordCountMapperLoop n rest).run ok i).result = 0 ∧
      ((wordCountMapperLoop n rest).run ok i).emits.map Msg.fields = (wordsOf rest).map (·, [])
  | 0, i, rest, hn, _ => by
    obtain rfl : rest = [] := List.eq_nil_of_length_eq_zero (by omega)
    exact ⟨rfl, rfl⟩
  | n + 1, i, rest, hn, hlen => by
    rw [wordCountMapperLoop]
    by_cases hend : (rest.dropWhile fun c => !isalnum c) = []
    · rw [if_pos hend, wordsOf, pieces_end hend]
      exact ⟨rfl, rfl⟩
    rw [if_neg hend, wordsOf, pieces_next hend, List.map_cons, ← wordsOf]
    have hcurr : (rest.dropWhile fun c => !isalnum c).length ≤ rest.length := (List.dropWhile_suffix _).length_le
    have hrest := length_behind_lt hend
    generalize (rest.dropWhile fun c => !isalnum c) = curr at hcurr hend hrest ⊢
    have htoken : (curr.takeWhile isalnum).length ≤ curr.length := (List.takeWhile_prefix _).length_le
    have hnul := nul_not_mem_lower fun c hc => List.mem_takeWhile_imp (p := isalnum) (l := curr) hc
    obtain ⟨m, hm, hf⟩ := msg?_eq_some _ [] hnul (by simp; omega) (Nat.zero_le _)
    have hsize : ((curr.takeWhile isalnum).length + 1) % sizeT ≤ ptrdiffMax := by
      have := Nat.mod_le ((curr.takeWhile isalnum).length + 1) sizeT
      omega
    have ih := wordCountMapperLoop_emits hok n (i + 1) (curr.dropWhile isalnum) (by omega) (by omega)
    simp only [userMalloc, userStore, userEmit, userFree, call_bind, ret_bind, UserProg.run, hsize, hok, and_self,
      if_true, hm]
    -- the emit returns 0
    refine ⟨ih.1, ?_⟩
    rw [User.emits, List.map_cons, List.map_cons, hf, ← ih.2]
    rfl

variable {ok : Sys → Nat → Bool}

/-- **`word_count_mapper` emits the words of its line** if every allocation succeeds. -/
theorem wordCountMapper_emits (line : FileLine) (hok : ∀ i, ok (.mapper line) i = true)
    (h : line.line.length < ptrdiffMax) : (wordCount ok (.mapper line)).result = 0 ∧
      (wordCount ok (.mapper line)).emits.map Msg.fields = (wordsOf line.line).map (·, []) :=
  wordCountMapperLoop_emits hok _ _ _ (Nat.le_refl _) h

/-- **`word_count_reducer` emits the number of the values.** -/
theorem wordCountReducer_emits {token : Bytes} {values : List Bytes} (h0 : (0 : UInt8) ∉ token)
    (ht : token.length < ptrdiffMax) :
    (wordCount ok (.reducer token values)).emits.map Msg.fields = [(token, sizeBytes values.length)] := by
  have hv : (sizeBytes values.length).length ≤ ptrdiffMax := by
    rw [sizeBytes_length]
    decide
  obtain ⟨m, hm, hf⟩ := msg?_eq_some token (sizeBytes values.length) h0 ht hv
  simp only [wordCount, wordCountReducer, userEmit, UserProg.run, hm]
  rw [User.emits, List.map_cons, hf]
  rfl

end Run

end MrLib
