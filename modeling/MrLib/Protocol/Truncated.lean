import MrLib.Protocol.LineStream
import MrLib.Protocol.ResultStream

/-!
# Truncated streams

A process that dies leaves a stream that ends anywhere. `read_n` then returns fewer bytes than it was asked for, and when
`NDEBUG` has removed the asserts nothing looks at that: a receiver goes on with what was in its memory before. In the
headers of pairs and lines that is anything, in a header of `receive_output_from_reducer` what was left of the one before.

A receiver rejects a truncated stream when its calls end with `-1`, when what they have returned or written until then are
messages that were wholly read, and when nothing depends on the bytes of a header that were not read (`PairsRejected`,
`OutputRejected`, `LinesRejected`). `truncated_streams`: no receiver rejects any truncated stream. On every stream that is
cut, anywhere, some run of the calls goes on to the end of the file and takes it for the end of the stream.
-/

namespace MrLib

open Conc Prog

/-! ## Rejecting a stream -/

/-- The environment `env` in which an uninitialised variable of `n` bytes holds `g n`. -/
def Filled {S : Type} (env : S → Io → IoRet → S → Prop) (g : Nat → Bytes) (s : S) (c : Io) (r : IoRet) (s' : S) : Prop :=
  env s c r s' ∧ ∀ n, c = .sys (.uninit n) → r = .sys (.val (.bytes (g n)))

/-- Contents for the uninitialised variables. -/
def Fits (g : Nat → Bytes) : Prop := ∀ n, (g n).length = n

/-- No result of `receive_pair_from_mapper_fd` on the bytes `s` depends on what uninitialised variables hold. -/
def PairsUnread (fd : Nat) (s : Bytes) : Prop :=
  ∀ n g g', Fits g' → ∀ s' r, Runs (Filled StreamEnv g) s (receivePairs fd n) s' r →
    Runs (Filled StreamEnv g') s (receivePairs fd n) s' r

/-- The same for what `receive_output_from_reducer` returns and writes. -/
def OutputUnread (job : Job) (old s : Bytes) : Prop :=
  ∀ g g', Fits g' → ∀ s' x,
    Loop (Filled (OutputEnv job.outputPath) g) receiveOutputBlock ⟨s, old⟩ (receiveOutput job) s' x →
      Loop (Filled (OutputEnv job.outputPath) g') receiveOutputBlock ⟨s, old⟩ (receiveOutput job) s' x

/-- `receive_pair_from_mapper_fd` rejects the bytes `s`, of which `ms` are the whole messages. -/
structure PairsRejected (fd : Nat) (ms : List Msg) (s : Bytes) : Prop where
  ends : ∃ n, (receivePairs fd n).Wp StreamEnv
    (fun r _ => r.2 = -1 ∧ ∃ ms', ms' <+: ms ∧ r.1 = ms'.map Msg.received) s
  unread : PairsUnread fd s

/-- `receive_output_from_reducer` rejects the bytes `s`, of which `ms` are the whole messages: the records it has
written are of these. -/
structure OutputRejected (job : Job) (old : Bytes) (ms : List Msg) (s : Bytes) : Prop where
  ends : ∃ n, LoopWp (OutputEnv job.outputPath) receiveOutputBlock (fun x s' => x = .ret (-1) ∧ ∃ ms' part, ms' <+: ms ∧
    s'.file = ms'.flatMap Msg.record ++ part ∧ readRecord part = none) n (receiveOutput job) ⟨s, old⟩
  unread : OutputUnread job old s

/-- Calls of `receive_line_from_main_fd` until one does not return 0: the lines, and what the last call has returned. -/
inductive LineCalls (env : Bytes → Io → IoRet → Bytes → Prop) (fd : Nat) :
    Receiver → Bytes → List FileLine → Int → Bytes → Prop
  | last {r : Receiver} {s s' : Bytes} {x : RecvLine} (h : Loop env (lineBlock fd) s (lineBlock fd r) s' x)
      (hx : x.result.1 ≠ 0) : LineCalls env fd r s [] x.result.1 s'
  | next {r r' : Receiver} {s s' s'' : Bytes} {l : FileLine} {ls : List FileLine} {res : Int}
      (h : Loop env (lineBlock fd) s (lineBlock fd r) s' (.line l r')) (hs : LineCalls env fd r' s' ls res s'') :
      LineCalls env fd r s (l :: ls) res s''

/-- The same for the lines. -/
def LinesUnread (fd : Nat) (s : Bytes) : Prop :=
  ∀ g g', Fits g' → ∀ ls res s', LineCalls (Filled StreamEnv g) fd mrMainReceiverInit s ls res s' →
    LineCalls (Filled StreamEnv g') fd mrMainReceiverInit s ls res s'

/-- Within `k` calls one returns `-1`, and those before it return lines of `es`. -/
def LinesEnd (fd : Nat) (es : List FileLine) : Nat → Receiver → Bytes → Prop
  | 0, _, _ => False
  | k + 1, r, s => ∃ n, LoopWp StreamEnv (lineBlock fd) (fun x s' => match x with
      | .line l r' => l ∈ es ∧ LinesEnd fd es k r' s'
      | .failed => True
      | .again _ | .eof _ => False) n (lineBlock fd r) s

/-- `receive_line_from_main_fd` rejects the bytes `s`, in which the lines `es` are whole. -/
structure LinesRejected (fd : Nat) (es : List FileLine) (s : Bytes) : Prop where
  ends : ∃ k, LinesEnd fd es k mrMainReceiverInit s
  unread : LinesUnread fd s

/-- The first lines of a file that end within `k` bytes of the first header. -/
def wholeLines : List Bytes → Nat → List Bytes
  | [], _ => []
  | l :: ls, k => if 16 + l.length ≤ k then l :: wholeLines ls (k - (16 + l.length)) else []

/-- The lines of a file that end within its first `k` bytes on the wire. -/
def InputFile.whole (f : InputFile) (k : Nat) : List FileLine :=
  numbered f.path 1 (wholeLines (linesOf f.contents) (k - (8 + f.path.bytes.length)))

/-! ## Uninitialised variables -/

section Filled

variable {S α : Type} {env : S → Io → IoRet → S → Prop} {g : Nat → Bytes} {s s' : S}

/-- `env` lets an uninitialised variable hold what `g` says. -/
def Admits (env : S → Io → IoRet → S → Prop) (g : Nat → Bytes) : Prop :=
  ∀ s n r s', env s (.sys (.uninit n)) r s' → ∃ s'', env s (.sys (.uninit n)) (.sys (.val (.bytes (g n)))) s''

theorem Fits.stream (hg : Fits g) : Admits StreamEnv g := fun s n _ _ _ => ⟨s, hg n, rfl⟩

theorem Fits.output {path : Bytes} (hg : Fits g) : Admits (OutputEnv path) g := fun s n _ _ _ => ⟨s, ⟨hg n, rfl⟩, rfl⟩

theorem filled_of_env (hg : Admits env g) {c : Io} (h : ∃ r s', env s c r s') :
    (∃ r s', Filled env g s c r s') ∧ ∀ r s', Filled env g s c r s' → env s c r s' := by
  refine ⟨?_, fun r s' h => h.1⟩
  obtain ⟨r, s', he⟩ := h
  by_cases hc : ∃ n, c = .sys (.uninit n)
  · obtain ⟨n, rfl⟩ := hc
    obtain ⟨s'', he⟩ := hg s n r s' he
    refine ⟨_, s'', he, fun m hm => ?_⟩
    cases hm
    rfl
  · exact ⟨r, s', he, fun n hn => absurd ⟨n, hn⟩ hc⟩

/-- What is right whatever the uninitialised variables hold. -/
theorem wp_filled (hg : Admits env g) {p : IoProg α} {Q : α → S → Prop} (h : p.Wp env Q s) : p.Wp (Filled env g) Q s :=
  h.of_env fun _ _ => filled_of_env hg

theorem wp_uninit_filled {n : Nat} {Q : Bytes → S → Prop}
    (hex : ∃ s', env s (.sys (.uninit n)) (.sys (.val (.bytes (g n)))) s')
    (h : ∀ s', env s (.sys (.uninit n)) (.sys (.val (.bytes (g n)))) s' → Q (g n) s') :
    (uninit n).Wp (Filled env g) Q s := by
  obtain ⟨s', he⟩ := hex
  refine ⟨⟨_, s', he, fun m hm => by cases hm; rfl⟩, ?_⟩
  rintro r s'' ⟨he, hr⟩
  obtain rfl := hr n rfl
  exact h s'' he

/-- A run is one whatever the environment allows besides. -/
theorem loop_of_filled {Φ ρ : Type} {body : Φ → IoProg (Except ρ Φ)} {p : IoProg (Except ρ Φ)} {x : ρ}
    (h : Loop (Filled env g) body s p s' x) : Loop env body s p s' x := h.mono fun _ _ _ _ h => h.1

end Filled

/-! ## Reading on after the end -/

section Read

variable {α : Type} {P : α → Bytes → Prop} {s : Bytes}

/-- An uninitialised variable may hold anything. -/
theorem may_uninit {n : Nat} {k : Bytes → IoProg α} (block : Bytes) (hb : block.length = n)
    (h : (k block).May StreamEnv P s) : (uninit n >>= k).May StreamEnv P s :=
  may_bind (may_call (.sys (.val (.bytes block))) s ⟨hb, rfl⟩ ⟨s, block, .ret, h⟩)

/-- In particular what should have been read. -/
theorem fill_front {block bs : Bytes} (h : bs <+: block) : fill block bs = block := by
  obtain ⟨t, rfl⟩ := h
  simp [fill]

/-- The front of a stream that starts with `b` and is cut. -/
theorem take_cut (b rest : Bytes) (k : Nat) : ((b ++ rest).take k).take b.length <+: b := by
  rw [List.take_take, List.take_append, show min b.length k - b.length = 0 by omega]
  simpa using List.take_prefix _ b

/-- What follows it. -/
theorem drop_cut (b rest : Bytes) (k : Nat) : ((b ++ rest).take k).drop b.length = rest.take (k - b.length) := by
  rw [List.drop_take, List.drop_left]

/-- The header of a message of a stream that is cut, filled with what is missing of it. -/
theorem cut_header (m : Msg) (rest : Bytes) (k : Nat) :
    fill (msgHeader m) (((m.wire ++ rest).take k).take 16) = msgHeader m ∧
      ((m.wire ++ rest).take k).drop 16 = (m.token.bytes ++ (m.value.bytes ++ rest)).take (k - 16) := by
  have hw : m.wire ++ rest = msgHeader m ++ (m.token.bytes ++ (m.value.bytes ++ rest)) := by
    simp [Msg.wire]
  have hlen := length_msgHeader m
  have hp := take_cut (msgHeader m) (m.token.bytes ++ (m.value.bytes ++ rest)) k
  have hd := drop_cut (msgHeader m) (m.token.bytes ++ (m.value.bytes ++ rest)) k
  rw [hlen] at hp hd
  rw [hw]
  exact ⟨fill_front hp, hd⟩

/-- The value of a pair, when the stream may end in it. -/
theorem receiveValue_cut {fd n : Nat} (hn : n ≤ ptrdiffMax) :
    (receiveValue fd n).Wp StreamEnv (fun r s' => (∃ v : Bytes, r = some v ∧ v.length = n) ∧ s' = s.drop n) s := by
  refine wp_malloc hn fun block hb => ?_
  simp only
  by_cases hl : 0 < n
  · simp only [hl, if_true]
    refine wp_readN ?_
    exact ⟨⟨_, rfl, by simp [length_fill, hb]⟩, rfl⟩
  · have hn0 : n = 0 := by omega
    subst hn0
    exact ⟨⟨_, rfl, rfl⟩, rfl⟩

/-- The token of a pair. -/
theorem receiveToken_cut {fd n : Nat} (hn : n < ptrdiffMax) :
    (receiveToken fd n).Wp StreamEnv (fun r s' => (∃ t, r = some (some t)) ∧ s' = s.drop n) s := by
  have hmod : (n + 1) % sizeT = n + 1 := by
    apply Nat.mod_eq_of_lt
    simp only [ptrdiffMax, sizeT] at *
    omega
  rw [receiveToken, hmod]
  refine wp_malloc (by omega) fun block hb => ?_
  simp only
  by_cases hl : 0 < n
  · simp only [hl, if_true]
    refine wp_readN ?_
    exact ⟨⟨_, rfl⟩, rfl⟩
  · have hn0 : n = 0 := by omega
    subst hn0
    exact ⟨⟨_, rfl⟩, rfl⟩

/-- **A pair is received from the start of it.** -/
theorem receivePair_cut (fd : Nat) (m : Msg) (rest : Bytes) {k : Nat} (hk : 0 < k) :
    (receivePairFromMapperFd fd).May StreamEnv
      (fun r s' => (∃ t v, r = .pair t v) ∧ s' = rest.take (k - m.wire.length)) ((m.wire ++ rest).take k) := by
  obtain ⟨hf, hd⟩ := cut_header m rest k
  obtain ⟨-, -, h1, h2⟩ := msgHeader_fields m rest (length_msgHeader m)
  rw [fill_full le_rfl] at h1 h2
  refine may_uninit (msgHeader m) (length_msgHeader m) (Wp.may (wp_readN ?_))
  obtain ⟨b, bs, hb⟩ : ∃ b bs, ((m.wire ++ rest).take k).take 16 = b :: bs := by
    refine List.exists_cons_of_ne_nil fun h => ?_
    have := congrArg List.length h
    simp [Msg.wire] at this
    omega
  rw [hb] at hf ⊢
  simp only [hf, h1, h2, hd]
  rw [wp_bind]
  refine (receiveToken_cut m.token.fits).mono ?_
  rintro _ _ ⟨⟨t, rfl⟩, rfl⟩
  simp only
  rw [wp_bind]
  refine (receiveValue_cut m.value.fits).mono ?_
  rintro _ _ ⟨⟨v, rfl, -⟩, rfl⟩
  have hlen : k - m.wire.length = k - 16 - m.token.bytes.length - m.value.bytes.length := by
    simp only [Msg.wire, List.length_append, length_msgHeader]
    omega
  rw [drop_cut, drop_cut, hlen]
  exact ⟨⟨_, _, rfl⟩, rfl⟩

/-- **Calls of `receive_pair_from_mapper_fd` on a stream that is cut** may come to its end without a `-1`. -/
theorem receivePairs_cut (fd : Nat) : ∀ (n : Nat) (ms : List Msg) (k : Nat),
    (receivePairs fd n).May StreamEnv (fun r _ => r.2 ≠ -1) ((ms.flatMap Msg.wire).take k)
  | 0, ms, k => ⟨_, _, .ret, by simp⟩
  | n + 1, [], k => by
    rw [receivePairs, List.flatMap_nil, List.take_nil]
    refine may_bind ((receivePair_eof fd).may.mono ?_)
    rintro r s' ⟨rfl, rfl⟩
    exact ⟨_, _, .ret, by simp⟩
  | n + 1, m :: ms, 0 => by
    rw [receivePairs, List.take_zero]
    refine may_bind ((receivePair_eof fd).may.mono ?_)
    rintro r s' ⟨rfl, rfl⟩
    exact ⟨_, _, .ret, by simp⟩
  | n + 1, m :: ms, k + 1 => by
    rw [receivePairs, List.flatMap_cons]
    refine may_bind ((receivePair_cut fd m _ (Nat.succ_pos k)).mono ?_)
    rintro _ _ ⟨⟨t, v, rfl⟩, rfl⟩
    refine may_bind ((receivePairs_cut fd n ms _).mono ?_)
    rintro r s' hr
    exact ⟨_, _, .ret, hr⟩

/-! ### The output -/

/-- The sizes in a header are not too large for an object. -/
structure HeaderFits (header : Bytes) : Prop where
  length : header.length = 16
  token : header.getD 7 0 < 128
  value : header.getD 15 0 < 128

section Header

variable {header header' bs : Bytes}

theorem leNat_le_ptrdiffMax (hl : bs.length = 8) : leNat bs ≤ ptrdiffMax ↔ bs.getD 7 0 < 128 := by
  rw [← leNat_lt_half hl]
  simp only [ptrdiffMax]
  omega

theorem HeaderFits.token_le (h : HeaderFits header) : leNat (header.take 8) ≤ ptrdiffMax := by
  rw [leNat_le_ptrdiffMax (by simp [h.length])]
  simpa [List.getD_eq_getElem?_getD, List.getElem?_take] using h.token

theorem HeaderFits.value_le (h : HeaderFits header) : leNat ((header.drop 8).take 8) ≤ ptrdiffMax := by
  rw [leNat_le_ptrdiffMax (by simp [h.length])]
  simpa [List.getD_eq_getElem?_getD, List.getElem?_take, List.getElem?_drop] using h.value

theorem getD_sizeBytes {n : Nat} (hn : n ≤ ptrdiffMax) : (sizeBytes n).getD 7 0 < 128 := by
  have hlt : n < 256 ^ 8 := by
    simp only [ptrdiffMax] at hn
    omega
  rw [← leNat_le_ptrdiffMax (sizeBytes_length n), sizeBytes, leNat_leBytes 8 n hlt]
  exact hn

/-- The header of a message fits. -/
theorem headerFits_msgHeader (m : Msg) : HeaderFits (msgHeader m) where
  length := length_msgHeader m
  token := by
    have h := getD_sizeBytes m.token.fits.le
    simpa [msgHeader, List.getD_eq_getElem?_getD, List.getElem?_append, sizeBytes_length] using h
  value := by
    have h := getD_sizeBytes m.value.fits
    simpa [msgHeader, List.getD_eq_getElem?_getD, List.getElem?_append, sizeBytes_length] using h

/-- Bytes of a header that fits, over one that fits. -/
theorem HeaderFits.fill (h : HeaderFits header) (h' : HeaderFits header') (hp : bs <+: header') :
    HeaderFits (fill header bs) := by
  obtain ⟨t, rfl⟩ := hp
  have hlen := h'.length
  rw [List.length_append] at hlen
  have get : ∀ i, i < 16 → header.getD i 0 < 128 → (bs ++ t).getD i 0 < 128 → (MrLib.fill header bs).getD i 0 < 128 := by
    intro i hi h1 h2
    rw [MrLib.fill]
    simp only [List.getD_eq_getElem?_getD, List.getElem?_append, List.getElem?_drop] at h1 h2 ⊢
    by_cases hb : i < bs.length
    · rw [if_pos hb] at h2 ⊢
      exact h2
    · rw [if_neg hb, Nat.add_sub_cancel' (Nat.not_lt.mp hb)]
      exact h1
  refine ⟨?_, get 7 (by decide) h.token h'.token, get 15 (by decide) h.value h'.value⟩
  simp only [MrLib.fill, List.length_append, List.length_drop, h.length]
  omega

end Header

variable {path : Bytes} {job : Job} {t : Receiving}

/-- The token of a record: its bytes are written, or as many others. -/
theorem receiveRecordToken_cut {fd n : Nat} (hn : n ≤ ptrdiffMax) : (receiveRecordToken fd n).run.Wp (OutputEnv path)
    (fun x t' => x = .ok () ∧ t'.pipe = t.pipe.drop n ∧ t'.file.length = t.file.length + n) t := by
  rw [receiveRecordToken]
  by_cases hl : 0 < n
  · simp only [hl, if_true]
    refine wp_pipe (malloc_spec hn) ?_
    rintro _ _ ⟨⟨block, rfl, hb⟩, rfl⟩
    refine wp_pipe (readN_spec _ _ _) ?_
    rintro _ _ ⟨rfl, rfl⟩
    refine wp_check_last (wp_outputInt (fun _ _ => Iff.rfl) ⟨by decide, rfl, rfl, ?_⟩)
    simp [length_fill, hb]
  · have hn0 : n = 0 := by omega
    subst hn0
    exact ⟨rfl, rfl, rfl⟩

/-- The result of a record. -/
theorem receiveRecordResult_cut {fd n : Nat} (hn : n ≤ ptrdiffMax) : (receiveRecordResult fd n).run.Wp (OutputEnv path)
    (fun x t' => x = .ok () ∧ t'.pipe = t.pipe.drop n ∧ t'.file.length = t.file.length + n) t := by
  rw [receiveRecordResult]
  refine wp_pipe (malloc_spec hn) ?_
  rintro _ _ ⟨⟨block, rfl, hb⟩, rfl⟩
  by_cases hl : 0 < n
  · simp only [hl, if_true]
    refine wp_pipe (readN_spec _ _ _) ?_
    rintro _ _ ⟨rfl, rfl⟩
    refine wp_check_last (wp_outputInt (fun _ _ => Iff.rfl) ⟨by decide, rfl, rfl, ?_⟩)
    simp [length_fill, hb]
  · have hn0 : n = 0 := by omega
    subst hn0
    exact ⟨rfl, rfl, rfl⟩

/-- **One iteration on a pipe that is not empty**: a record is written, of the sizes that are in the header now. -/
theorem receiveRecord_reads {header : Bytes} (hpipe : t.pipe ≠ []) (hh : HeaderFits (fill header (t.pipe.take 16))) :
    (receiveRecord job header).run.Wp (OutputEnv path) (fun x t' =>
      x = .ok (.record job (fill header (t.pipe.take 16))) ∧
      t'.pipe = ((t.pipe.drop 16).drop (leNat ((fill header (t.pipe.take 16)).take 8))).drop
        (leNat (((fill header (t.pipe.take 16)).drop 8).take 8)) ∧
      t'.file.length = t.file.length + 8 + leNat ((fill header (t.pipe.take 16)).take 8) + 8 +
        leNat (((fill header (t.pipe.take 16)).drop 8).take 8)) t := by
  refine wp_pipe (readN_spec _ _ _) ?_
  rintro _ _ ⟨rfl, rfl⟩
  obtain ⟨b, bs, hb⟩ := List.exists_cons_of_ne_nil (show t.pipe.take 16 ≠ [] by simpa using hpipe)
  rw [hb] at hh ⊢
  refine wp_check (wp_outputInt (fun _ _ => Iff.rfl) ⟨by decide, wp_fn_bind ?_⟩)
  refine (receiveRecordToken_cut hh.token_le).mono ?_
  rintro _ ⟨pipe1, file1⟩ ⟨rfl, rfl, h1⟩
  refine wp_check (wp_outputInt (fun _ _ => Iff.rfl) ⟨by decide, wp_fn_bind ?_⟩)
  refine (receiveRecordResult_cut hh.value_le).mono ?_
  rintro _ ⟨pipe2, file2⟩ ⟨rfl, rfl, h2⟩
  refine ⟨rfl, rfl, ?_⟩
  simp only [List.length_append, sizeBytes_length] at h1 h2 ⊢
  omega

/-- **A record is written from the start of its message**, whatever is in the rest of the header, as long as it fits. -/
theorem receiveRecord_cut {header : Bytes} (hh : HeaderFits header) (m : Msg) (rest file : Bytes) {k : Nat} (hk : 0 < k) :
    (receiveRecord job header).run.Wp (OutputEnv path) (fun x t' => ∃ header', HeaderFits header' ∧
      x = .ok (.record job header') ∧ t'.pipe = rest.take (k - m.wire.length)) ⟨(m.wire ++ rest).take k, file⟩ := by
  have hw : m.wire ++ rest = msgHeader m ++ (m.token.bytes ++ (m.value.bytes ++ rest)) := by
    simp [Msg.wire]
  have hpre := take_cut (msgHeader m) (m.token.bytes ++ (m.value.bytes ++ rest)) k
  rw [length_msgHeader, ← hw] at hpre
  have hfits := hh.fill (headerFits_msgHeader m) hpre
  have hne : (m.wire ++ rest).take k ≠ [] := by
    simp [Msg.wire, msgHeader, sizeBytes, leBytes, hk.ne']
  refine (receiveRecord_reads hne hfits).mono ?_
  rintro _ t' ⟨rfl, hp, -⟩
  refine ⟨_, hfits, rfl, hp.trans ?_⟩
  simp only
  have hlen : m.wire.length = 16 + m.token.bytes.length + m.value.bytes.length := by
    simp [Msg.wire, length_msgHeader, Nat.add_assoc]
  by_cases h16 : 16 ≤ k
  · -- the header has been read
    obtain ⟨ht, hd, h1, h2⟩ := msgHeader_fields m rest hh.length
    have htake : ((m.wire ++ rest).take k).take 16 = msgHeader m := by
      rw [List.take_take, Nat.min_eq_left h16, ht]
    have hdrop : ((m.wire ++ rest).take k).drop 16 = (m.token.bytes ++ (m.value.bytes ++ rest)).take (k - 16) := by
      rw [List.drop_take, hd]
    rw [htake, hdrop, h1, h2, drop_cut, drop_cut, hlen, ← Nat.sub_sub, ← Nat.sub_sub]
  · have hdrop : ((m.wire ++ rest).take k).drop 16 = [] := List.drop_eq_nil_of_le (by simp; omega)
    rw [hdrop, List.drop_nil, List.drop_nil, Nat.sub_eq_zero_of_le (by omega), List.take_zero]

/-- The loop, on a stream that is cut. -/
theorem receiveRecords_cut : ∀ (ms : List Msg) (k : Nat) (file : Bytes) {header : Bytes}, HeaderFits header →
    LoopWp (OutputEnv path) receiveOutputBlock (fun x _ => x = .ret 0) (ms.length + 1)
      (receiveOutputBlock (.record job header)) ⟨(ms.flatMap Msg.wire).take k, file⟩
  | [], k, file, header, _ => by
    rw [List.flatMap_nil, List.take_nil]
    refine (receiveRecord_eof header file).mono ?_
    rintro _ t ⟨rfl, -⟩
    rfl
  | m :: ms, 0, file, header, _ => by
    rw [List.take_zero]
    refine (receiveRecord_eof header file).mono ?_
    rintro _ t ⟨rfl, -⟩
    rfl
  | m :: ms, k + 1, file, header, hh => by
    rw [List.flatMap_cons]
    refine (receiveRecord_cut hh m _ file (Nat.succ_pos k)).mono ?_
    rintro _ ⟨_, file1⟩ ⟨header', hh', rfl, rfl⟩
    exact receiveRecords_cut ms _ file1 hh'

/-- The header holds what the uninitialised variable holds. -/
theorem receiveOutput_filled {g : Nat → Bytes} (hg : Fits g) (job : Job) (pipe old : Bytes) :
    (receiveOutput job).Wp (Filled (OutputEnv job.outputPath) g)
      (fun x t => x = .ok (.record job (g 16)) ∧ t = ⟨pipe, []⟩) ⟨pipe, old⟩ := by
  refine wp_check (wp_filled hg.output (wp_outputLog ⟨by decide, ?_⟩))
  refine wp_check (wp_filled hg.output (wp_outputInt (fun _ _ => and_iff_right rfl) ⟨by decide, ?_⟩))
  refine wp_lift (wp_uninit_filled ⟨⟨pipe, []⟩, ⟨hg 16, rfl⟩, rfl⟩ ?_)
  rintro ⟨pipe1, file1⟩ ⟨⟨-, hp⟩, hf⟩
  exact ⟨rfl, by rw [show pipe1 = pipe from hp, show file1 = [] from hf]⟩

/-- **`receive_output_from_reducer` on a stream that is cut** returns 0, if what is in its header at the beginning fits. -/
theorem receiveOutput_cut {g : Nat → Bytes} (hg : Fits g) (hh : HeaderFits (g 16)) (job : Job) (ms : List Msg) (k : Nat)
    (old : Bytes) : LoopMay (Filled (OutputEnv job.outputPath) g) receiveOutputBlock (fun x _ => x = .ret 0)
      (receiveOutput job) ⟨(ms.flatMap Msg.wire).take k, old⟩ := by
  refine loopMay (Wp.may ((receiveOutput_filled hg job _ old).mono ?_))
  rintro _ _ ⟨rfl, rfl⟩
  exact ((receiveRecords_cut ms k [] hh).of_env fun _ _ => filled_of_env hg.output).may

/-! ### The lines -/

variable {fd : Nat}

/-- Some calls come to the end of the stream and take it for its end. -/
def ReadsOn (fd : Nat) (r : Receiver) (s : Bytes) : Prop := ∃ ls s', LineCalls StreamEnv fd r s ls 1 s'

/-- A call whose first iteration may do what that of another may do. -/
theorem ReadsOn.first {r r' : Receiver} {s s1 : Bytes}
    (h : ∀ P, (receiveLineFromMainFd fd r').May StreamEnv P s1 → (receiveLineFromMainFd fd r).May StreamEnv P s)
    (hr : ReadsOn fd r' s1) : ReadsOn fd r s := by
  have hloop : ∀ {s' x}, Loop StreamEnv (lineBlock fd) s1 (lineBlock fd r') s' x →
      Loop StreamEnv (lineBlock fd) s (lineBlock fd r) s' x := by
    intro s' x hl
    have hruns : ∀ {y s2}, Runs StreamEnv s1 (lineBlock fd r') s2 y → Runs StreamEnv s (lineBlock fd r) s2 y := by
      intro y s2 hy
      obtain ⟨s3, z, hz, hy⟩ := runs_bind.mp hy
      obtain ⟨s4, z', hz', rfl, rfl⟩ := h (fun a s' => a = z ∧ s' = s3) ⟨s3, z, hz, rfl, rfl⟩
      exact runs_bind.mpr ⟨_, _, hz', hy⟩
    cases hl with
    | leave hy => exact .leave (hruns hy)
    | next hy hl => exact .next (hruns hy) hl
  obtain ⟨ls, s', hc⟩ := hr
  generalize hres : (1 : Int) = res at hc
  cases hc with
  | last hl hx =>
    rw [ReadsOn, hres]
    exact ⟨_, _, .last (hloop hl) hx⟩
  | next hl hs =>
    rw [ReadsOn, hres]
    exact ⟨_, _, .next (hloop hl) hs⟩

/-- A call that goes on to the next iteration. -/
theorem ReadsOn.again {r r' : Receiver} {s s1 : Bytes}
    (h : (receiveLineFromMainFd fd r).May StreamEnv (fun x s' => x = .again r' ∧ s' = s1) s) (hr : ReadsOn fd r' s1) :
    ReadsOn fd r s := by
  obtain ⟨_, _, hy, rfl, rfl⟩ := h
  have hblock : Runs StreamEnv s (lineBlock fd r) _ (.ok r') := runs_bind.mpr ⟨_, _, hy, .ret⟩
  obtain ⟨ls, s', hc⟩ := hr
  generalize hres : (1 : Int) = res at hc
  cases hc with
  | last hl hx =>
    rw [ReadsOn, hres]
    exact ⟨_, _, .last (.next hblock hl) hx⟩
  | next hl hs =>
    rw [ReadsOn, hres]
    exact ⟨_, _, .next (.next hblock hl) hs⟩

/-- A call that returns a line. -/
theorem ReadsOn.line {r r' : Receiver} {l : FileLine} {s s1 : Bytes}
    (h : (receiveLineFromMainFd fd r).May StreamEnv (fun x s' => x = .line l r' ∧ s' = s1) s) (hr : ReadsOn fd r' s1) :
    ReadsOn fd r s := by
  obtain ⟨_, _, hy, rfl, rfl⟩ := h
  obtain ⟨ls, s', hc⟩ := hr
  exact ⟨_, _, .next (.leave (runs_bind.mpr ⟨_, _, hy, .ret⟩)) hc⟩

/-- Between two files, at the end of the stream. -/
theorem ReadsOn.eof {r : Receiver} (hr : r.fileFinished = true) : ReadsOn fd r [] := by
  have hw : (receiveLineFromMainFd fd r).Wp StreamEnv _ [] := receiveLine_eof ⟨hr, .nil⟩
  obtain ⟨s', x, hy, r', rfl, -⟩ := hw.may
  exact ⟨_, _, .last (x := .eof r') (.leave (runs_bind.mpr ⟨_, _, hy, .ret⟩)) (by simp [RecvLine.result])⟩

/-- The content of a line. -/
theorem receiveLineContent_cut {n : Nat} (hn : n < ptrdiffMax) :
    (receiveLineContent fd n).Wp StreamEnv (fun r s' => (∃ l, r = some l) ∧ s' = s.drop n) s := by
  have hmod : (n + 1) % sizeT = n + 1 := by
    apply Nat.mod_eq_of_lt
    simp only [ptrdiffMax, sizeT] at *
    omega
  rw [receiveLineContent, hmod]
  refine wp_malloc (by omega) fun block hb => ?_
  simp only
  by_cases hl : 0 < n
  · simp only [hl, if_true]
    refine wp_readN ?_
    exact ⟨⟨_, rfl⟩, rfl⟩
  · have hn0 : n = 0 := by omega
    subst hn0
    exact ⟨⟨_, rfl⟩, rfl⟩

/-- The receiver in a file with a name of `len` bytes. -/
structure Inside (len : Nat) (r : Receiver) : Prop where
  len : r.currentFileNameLen = len
  finished : r.fileFinished = false

/-- In a file, in front of the header of its end. -/
theorem readsOn_eofHeader {r : Receiver} {len : Nat} (hr : Inside len r) {pad rest : Bytes} (hp : pad.length = 7) (k : Nat)
    (h : ∀ r, r.fileFinished = true → ReadsOn fd r (rest.take (k - 16))) :
    ReadsOn fd r ((1 :: pad ++ sizeBytes 0 ++ rest).take k) := by
  have hlen : (1 :: pad ++ sizeBytes 0).length = 16 := by simp [hp, sizeBytes_length]
  have hpre := take_cut (1 :: pad ++ sizeBytes 0) rest k
  have hdrop := drop_cut (1 :: pad ++ sizeBytes 0) rest k
  rw [hlen] at hpre hdrop
  refine ReadsOn.again ?_ (h { r with fileFinished := true } rfl)
  rw [receiveLineFromMainFd, if_neg (by simp [hr.finished])]
  refine may_uninit _ hlen (Wp.may (wp_readN ?_))
  simp only [fill_front hpre, hdrop]
  exact ⟨rfl, rfl⟩

/-- In a file, in front of the header of a line. -/
theorem readsOn_lineHeader {r : Receiver} {len : Nat} (hr : Inside len r) (hlen1 : len < ptrdiffMax) {pad l rest : Bytes}
    (hp : pad.length = 7) (hl : l.length < ptrdiffMax) (k : Nat)
    (h : ∀ r, Inside len r → ReadsOn fd r (rest.take (k - 16 - l.length))) :
    ReadsOn fd r ((0 :: pad ++ sizeBytes l.length ++ l ++ rest).take k) := by
  have hlen : (0 :: pad ++ sizeBytes l.length).length = 16 := by simp [hp, sizeBytes_length]
  have hpre := take_cut (0 :: pad ++ sizeBytes l.length) (l ++ rest) k
  have hdrop := drop_cut (0 :: pad ++ sizeBytes l.length) (l ++ rest) k
  rw [hlen] at hpre hdrop
  have hn : l.length < sizeT := by
    simp only [ptrdiffMax, sizeT] at *
    omega
  obtain ⟨-, -, hfill, hle⟩ := lineHeader_fields 0 l.length hp hlen hn (l ++ rest)
  have hmod : (r.currentFileNameLen + 1) % sizeT = len + 1 := by
    rw [hr.len]
    apply Nat.mod_eq_of_lt
    simp only [ptrdiffMax, sizeT] at *
    omega
  rw [List.append_assoc]
  have hmay : (receiveLineFromMainFd fd r).May StreamEnv (fun x s' => ∃ line r', x = .line line r' ∧ Inside len r' ∧
      s' = rest.take (k - 16 - l.length)) ((0 :: pad ++ sizeBytes l.length ++ (l ++ rest)).take k) := by
    rw [receiveLineFromMainFd, if_neg (by simp [hr.finished])]
    refine may_uninit _ hlen (Wp.may (wp_readN ?_))
    simp only [fill_front hpre, hdrop, hle, hmod]
    rw [if_neg (by simp)]
    refine wp_malloc (by omega) fun _ _ => ?_
    simp only
    rw [wp_bind]
    refine (receiveLineContent_cut hl).mono ?_
    rintro _ _ ⟨⟨line, rfl⟩, rfl⟩
    exact ⟨_, _, rfl, ⟨hr.len, hr.finished⟩, drop_cut l rest (k - 16)⟩
  obtain ⟨s', _, hy, line, r', rfl, hr', rfl⟩ := hmay
  exact ReadsOn.line ⟨_, _, hy, rfl, rfl⟩ (h r' hr')

/-- Between two files, in front of the name of the next. -/
theorem readsOn_name {r : Receiver} (hr : r.fileFinished = true) (name : CString) {rest : Bytes} {k : Nat} (hk : 0 < k)
    (h : ∀ r, Inside name.bytes.length r → ReadsOn fd r (rest.take (k - 8 - name.bytes.length))) :
    ReadsOn fd r ((sizeBytes name.bytes.length ++ name.bytes ++ rest).take k) := by
  have hlen := sizeBytes_length name.bytes.length
  have hpre := take_cut (sizeBytes name.bytes.length) (name.bytes ++ rest) k
  have hdrop := drop_cut (sizeBytes name.bytes.length) (name.bytes ++ rest) k
  rw [hlen] at hpre hdrop
  have hle : leNat (sizeBytes name.bytes.length) = name.bytes.length := leNat_sizeBytes (Nat.lt_of_succ_lt name.fits_size)
  have hpath : (name.bytes.length + 1) % sizeT = name.bytes.length + 1 := Nat.mod_eq_of_lt name.fits_size
  have hfits := name.fits
  rw [List.append_assoc]
  -- the block of the name is what `malloc` gives, and what is left of the name
  let block := (fill (List.replicate (name.bytes.length + 1) 0) (((name.bytes ++ rest).take (k - 8)).take
    name.bytes.length)).set name.bytes.length 0
  refine ReadsOn.first (fun P hP => ?_) (h ⟨some block, name.bytes.length, 1, false⟩ ⟨rfl, rfl⟩)
  rw [receiveLineFromMainFd, if_pos hr]
  refine may_uninit _ hlen ?_
  refine may_bind ((readN_spec _ _ _).may.mono ?_)
  rintro _ _ ⟨rfl, rfl⟩
  obtain ⟨b, bs, hb⟩ : ∃ b bs, ((sizeBytes name.bytes.length ++ (name.bytes ++ rest)).take k).take 8 = b :: bs := by
    refine List.exists_cons_of_ne_nil fun h => ?_
    have := congrArg List.length h
    simp [hlen] at this
    omega
  have hfill := fill_front hpre
  rw [hb] at hfill ⊢
  simp only [hfill, hle, hpath, hdrop]
  refine may_bind (may_call (.sys (.val (.bytes (List.replicate (name.bytes.length + 1) 0))))
    ((name.bytes ++ rest).take (k - 8)) ⟨by omega, by simp, rfl⟩ ⟨_, _, .ret, ?_⟩)
  refine may_bind ((readN_spec _ _ _).may.mono ?_)
  rintro _ _ ⟨rfl, rfl⟩
  rw [drop_cut]
  exact hP

/-- In a file. -/
theorem readsOn_lines {len : Nat} (hlen : len < ptrdiffMax) {ls : List Bytes} {w ws : Bytes} (hw : LineWires ls w)
    (hfits : ∀ l ∈ ls, l.length < ptrdiffMax)
    (hnext : ∀ k r, r.fileFinished = true → ReadsOn fd r (ws.take k)) (k : Nat) {r : Receiver} (hr : Inside len r) :
    ReadsOn fd r ((w ++ ws).take k) := by
  induction hw generalizing k r with
  | eof pad hp => exact readsOn_eofHeader hr hp k (hnext _)
  | @line l ls w pad hp hw ih =>
    rw [List.append_assoc _ w ws]
    exact readsOn_lineHeader hr hlen hp (hfits l List.mem_cons_self) k fun r' hr' =>
      ih (fun l' hl' => hfits l' (List.mem_cons_of_mem _ hl')) _ hr'

/-- **Calls of `receive_line_from_main_fd` on a stream that is cut** may read on to its end. -/
theorem readsOn_files {fs : List InputFile} {w : Bytes} (hw : FileWires fs w) (k : Nat) {r : Receiver}
    (hr : r.fileFinished = true) : ReadsOn fd r (w.take k) := by
  induction hw generalizing k r with
  | nil =>
    rw [List.take_nil]
    exact .eof hr
  | @cons f fs w ws hf hs ih =>
    obtain ⟨hl⟩ := hf
    rcases Nat.eq_zero_or_pos k with rfl | hk
    · rw [List.take_zero]
      exact .eof hr
    · rw [List.append_assoc _ _ ws]
      exact readsOn_name hr f.path hk fun r' hr' =>
        readsOn_lines f.path.fits hl f.fits (fun k' r'' => ih k') _ hr'

/-- Who reads on does not end with `-1`. -/
theorem ReadsOn.not_linesEnd {r : Receiver} (h : ReadsOn fd r s) (es : List FileLine) (k : Nat) :
    ¬ LinesEnd fd es k r s := by
  obtain ⟨ls, s', hc⟩ := h
  generalize hres : (1 : Int) = res at hc
  intro hk
  induction hc generalizing k with
  | last hl hx =>
    cases k with
    | zero => exact hk
    | succ k =>
      obtain ⟨n, hn⟩ := hk
      have hx := hn.run hl
      split at hx
      · simp [RecvLine.result] at hres
      · simp [RecvLine.result] at hres
      · exact hx
      · exact hx
  | next hl _ ih =>
    cases k with
    | zero => exact hk
    | succ k =>
      obtain ⟨n, hn⟩ := hk
      exact ih _ hres (hn.run hl).2

end Read

/-! ## Results that depend on what was not read -/

/-- Variables that hold zeros, and `b` in their last byte. -/
def lastByte (b : UInt8) (n : Nat) : Bytes := (List.replicate n 0).set (n - 1) b

theorem fits_lastByte (b : UInt8) : Fits (lastByte b) := fun n => by simp [lastByte]

/-- The header of a message of which `k` bytes were read, over such a variable. -/
def cutHeader (m : Msg) (k : Nat) (b : UInt8) : Bytes := fill (lastByte b 16) (m.wire.take k)

section Unread

variable {m : Msg} {k : Nat} {b : UInt8} {fd : Nat}

theorem take_wire (hk : k < 16) : m.wire.take k = (msgHeader m).take k := by
  rw [Msg.wire, List.append_assoc, List.take_append_of_le_length (by rw [length_msgHeader]; omega)]

theorem headerFits_cutHeader (hk : k < 16) (hb : b < 128) : HeaderFits (cutHeader m k b) := by
  rw [cutHeader, take_wire hk]
  exact HeaderFits.fill ⟨by simp [lastByte], by simp [lastByte, List.getD_eq_getElem?_getD], by simpa [lastByte] using hb⟩
    (headerFits_msgHeader m) (List.take_prefix _ _)

/-- The first size, as far as it was read. -/
theorem take_cutHeader (hk : k < 16) :
    (cutHeader m k b).take 8 = (sizeBytes m.token.bytes.length).take k ++ List.replicate (8 - k) 0 := by
  have hread : ((msgHeader m).take k).take 8 = (sizeBytes m.token.bytes.length).take k := by
    rw [List.take_take, Nat.min_comm, ← List.take_take, msgHeader, List.take_left' (sizeBytes_length _)]
  have hzero : (lastByte b 16).take 8 = List.replicate 8 0 := rfl
  rw [cutHeader, take_wire hk, fill, List.take_append, hread]
  congr 1
  rw [List.length_take, length_msgHeader, Nat.min_eq_left hk.le, ← List.drop_take, hzero, List.drop_replicate]

theorem cutHeader_token (hk : k < 16) : leNat ((cutHeader m k b).take 8) < ptrdiffMax := by
  have hfits := m.token.fits
  have hle : leNat ((sizeBytes m.token.bytes.length).take k) ≤ leNat (sizeBytes m.token.bytes.length) := by
    conv_rhs => rw [← List.take_append_drop k (sizeBytes m.token.bytes.length), leNat_append]
    exact Nat.le_add_right _ _
  rw [take_cutHeader hk, leNat_append, leNat_replicate, Nat.mul_zero, Nat.add_zero]
  rw [leNat_sizeBytes (Nat.lt_of_succ_lt m.token.fits_size)] at hle
  omega

/-- The second size depends on the last byte. -/
theorem cutHeader_value (hk : k < 16) :
    leNat (((cutHeader m k 0).drop 8).take 8) ≠ leNat (((cutHeader m k 1).drop 8).take 8) := by
  intro h
  have hlen : ∀ b, (((cutHeader m k b).drop 8).take 8).length = 8 := fun b => by
    simp [cutHeader, take_wire hk, length_fill, lastByte, length_msgHeader]
  have hlast : ∀ b, (((cutHeader m k b).drop 8).take 8)[7]? = some b := fun b => by
    have hl : ((msgHeader m).take k).length = k := by simp [length_msgHeader, hk.le]
    have h15 : k + (15 - k) = 15 := by omega
    simp [cutHeader, take_wire hk, fill, List.getElem?_take, List.getElem?_drop, List.getElem?_append, hl, h15,
      lastByte]
    omega
  have := hlast 0
  rw [leNat_inj ((hlen 0).trans (hlen 1).symm) h, hlast 1] at this
  cases this

/-- A pair of which a part of the header was read. -/
theorem receivePair_header (hk : 0 < k) (hk16 : k < 16) (hb : b < 128) :
    (receivePairFromMapperFd fd).Wp (Filled StreamEnv (lastByte b)) (fun r s' => ∃ t v, r = .pair t v ∧
      v.length = leNat (((cutHeader m k b).drop 8).take 8) ∧ s' = []) (m.wire.take k) := by
  have hlen : (m.wire.take k).length = k := by
    simp [take_wire hk16, length_msgHeader, hk16.le]
  have htake : (m.wire.take k).take 16 = m.wire.take k := List.take_of_length_le (by omega)
  have hdrop : (m.wire.take k).drop 16 = [] := List.drop_eq_nil_of_le (by omega)
  refine (wp_bind _ _ _).mpr (wp_uninit_filled ⟨_, fits_lastByte b 16, rfl⟩ ?_)
  rintro _ ⟨-, rfl⟩
  refine wp_filled (fits_lastByte b).stream (wp_readN ?_)
  obtain ⟨c, cs, hc⟩ := List.exists_cons_of_ne_nil (List.length_pos_iff.mp (hlen.symm ▸ hk))
  have hcut : fill (lastByte b 16) (c :: cs) = cutHeader m k b := by rw [cutHeader, hc]
  rw [htake, hdrop, hc]
  simp only [hcut]
  refine (wp_bind _ _ _).mpr ((receiveToken_cut (cutHeader_token hk16)).mono ?_)
  rintro _ _ ⟨⟨t, rfl⟩, rfl⟩
  refine (wp_bind _ _ _).mpr ((receiveValue_cut (headerFits_cutHeader hk16 hb).value_le).mono ?_)
  rintro _ _ ⟨⟨v, rfl, hv⟩, rfl⟩
  exact ⟨t, v, rfl, hv, by simp⟩

/-- And the pairs before it. -/
theorem receivePairs_header (hk : 0 < k) (hk16 : k < 16) (hb : b < 128) : ∀ ms : List Msg,
    (receivePairs fd (ms.length + 1)).Wp (Filled StreamEnv (lastByte b)) (fun r _ => ∃ t v,
      r.1 = ms.map Msg.received ++ [(t, v)] ∧ v.length = leNat (((cutHeader m k b).drop 8).take 8))
      (ms.flatMap Msg.wire ++ m.wire.take k)
  | [] => by
    refine (wp_bind _ _ _).mpr ((receivePair_header hk hk16 hb).mono ?_)
    rintro _ _ ⟨t, v, rfl, hv, rfl⟩
    exact ⟨t, v, rfl, hv⟩
  | m' :: ms => by
    rw [List.flatMap_cons, List.append_assoc]
    refine (wp_bind _ _ _).mpr ((wp_filled (fits_lastByte b).stream (receivePair_wire fd m' _)).mono ?_)
    rintro _ _ ⟨rfl, rfl⟩
    refine (wp_bind _ _ _).mpr ((receivePairs_header hk hk16 hb ms).mono ?_)
    rintro ⟨ps, res⟩ _ ⟨t, v, rfl, hv⟩
    exact ⟨t, v, rfl, hv⟩

/-- **What `receive_pair_from_mapper_fd` returns depends on bytes that were not read** whenever a header is cut. -/
theorem not_pairsUnread (fd : Nat) (ms : List Msg) (m : Msg) {k : Nat} (hk : 0 < k) (hk16 : k < 16) :
    ¬ PairsUnread fd (ms.flatMap Msg.wire ++ m.wire.take k) := by
  intro h
  have hzero : (receivePairs fd (ms.length + 1)).Wp (Filled StreamEnv (lastByte 0)) _ (ms.flatMap Msg.wire ++ m.wire.take k) :=
    receivePairs_header hk hk16 (by decide) ms
  obtain ⟨s', r, hr, t, v, hv0, hl0⟩ := hzero.ends
  obtain ⟨t', v', hv1, hl1⟩ := (receivePairs_header hk hk16 (by decide) ms).run
    (h _ _ (lastByte 1) (fits_lastByte 1) s' r hr)
  rw [hv0, List.append_cancel_left_eq, List.cons.injEq, Prod.mk.injEq] at hv1
  obtain ⟨⟨-, rfl⟩, -⟩ := hv1
  exact cutHeader_value hk16 (hl0.symm.trans hl1)

/-- The output when a part of the first header was read. -/
theorem receiveOutput_header (hk : 0 < k) (hk16 : k < 16) (hb : b < 128) (job : Job) (old : Bytes) :
    LoopWp (Filled (OutputEnv job.outputPath) (lastByte b)) receiveOutputBlock (fun _ t => t.file.length =
      16 + leNat ((cutHeader m k b).take 8) + leNat (((cutHeader m k b).drop 8).take 8)) 3 (receiveOutput job)
      ⟨m.wire.take k, old⟩ := by
  have hlen : (m.wire.take k).length = k := by
    simp [take_wire hk16, length_msgHeader, hk16.le]
  have htake : (m.wire.take k).take 16 = m.wire.take k := List.take_of_length_le (by omega)
  have hdrop : (m.wire.take k).drop 16 = [] := List.drop_eq_nil_of_le (by omega)
  refine (receiveOutput_filled (fits_lastByte b) job _ old).mono ?_
  rintro _ _ ⟨rfl, rfl⟩
  have hfits := headerFits_cutHeader (m := m) hk16 hb
  have hrec : (receiveRecord job (lastByte b 16)).run.Wp (OutputEnv job.outputPath) _ (⟨m.wire.take k, []⟩ : Receiving) :=
    receiveRecord_reads (List.length_pos_iff.mp (hlen.symm ▸ hk)) (by rw [htake]; exact hfits)
  refine (wp_filled (fits_lastByte b).output hrec).mono ?_
  rintro _ ⟨pipe1, file1⟩ ⟨rfl, hp, hf⟩
  rw [htake, hdrop, List.drop_nil, List.drop_nil] at hp
  obtain rfl : pipe1 = [] := hp
  refine (wp_filled (fits_lastByte b).output (receiveRecord_eof _ file1)).mono ?_
  rintro _ t ⟨rfl, ht⟩
  rw [htake] at hf
  simp only [List.length_nil] at hf
  show t.file.length = _
  rw [ht, cutHeader, hf]
  omega

/-- **What `receive_output_from_reducer` writes depends on bytes that were not read** whenever the first header is cut. -/
theorem not_outputUnread (job : Job) (old : Bytes) (m : Msg) {k : Nat} (hk : 0 < k) (hk16 : k < 16) :
    ¬ OutputUnread job old (m.wire.take k) := by
  intro h
  obtain ⟨t, x, hl, h0⟩ := (receiveOutput_header (m := m) (b := 0) hk hk16 (by decide) job old).ends
  have h1 := (receiveOutput_header (m := m) (b := 1) hk hk16 (by decide) job old).run
    (h _ (lastByte 1) (fits_lastByte 1) t x hl)
  rw [h0, take_cutHeader hk16, take_cutHeader hk16] at h1
  exact cutHeader_value (m := m) hk16 (by omega)

/-- Variables that hold zeros, and `b` in their first byte. -/
def firstByte (b : UInt8) (n : Nat) : Bytes := (List.replicate n 0).set 0 b

theorem fits_firstByte (b : UInt8) : Fits (firstByte b) := fun n => by simp [firstByte]

/-- A length of which `k` bytes were read, over such a variable. -/
theorem leNat_cut {n : Nat} (hn : n < sizeT) (hk : 0 < k) : leNat (fill (firstByte b 8) ((sizeBytes n).take k)) ≤ n := by
  have hlen := sizeBytes_length n
  have hle : leNat ((sizeBytes n).take k) ≤ leNat (sizeBytes n) := by
    conv_rhs => rw [← List.take_append_drop k (sizeBytes n), leNat_append]
    exact Nat.le_add_right _ _
  have hpos : 0 < min k (sizeBytes n).length := by omega
  rw [fill, List.length_take, firstByte, List.drop_set_of_lt hpos, List.drop_replicate, leNat_append, leNat_replicate,
    Nat.mul_zero, Nat.add_zero]
  rwa [leNat_sizeBytes hn] at hle

/-- In a file at the end of the stream: the flag of the header is what the variable holds, here not 0. -/
theorem receiveLineHeader_flagged (r : Receiver) : (receiveLineHeader fd r).Wp (Filled StreamEnv (firstByte 1))
    (fun x s' => x = .again { r with fileFinished := true } ∧ s' = []) [] := by
  refine (wp_bind _ _ _).mpr (wp_uninit_filled ⟨_, fits_firstByte 1 16, rfl⟩ ?_)
  rintro _ ⟨-, rfl⟩
  refine wp_filled (fits_firstByte 1).stream (wp_readN ?_)
  exact ⟨rfl, rfl⟩

/-- Here it is 0, and so is the length: the line is empty. -/
theorem receiveLineHeader_zero {r : Receiver} (hr : r.currentFileNameLen < ptrdiffMax) :
    (receiveLineHeader fd r).Wp (Filled StreamEnv (firstByte 0)) (fun x s' => ∃ l r', x = .line l r' ∧
      r'.currentFileNameLen = r.currentFileNameLen ∧ r'.fileFinished = r.fileFinished ∧ s' = []) [] := by
  have hmod : (r.currentFileNameLen + 1) % sizeT = r.currentFileNameLen + 1 := by
    apply Nat.mod_eq_of_lt
    simp only [ptrdiffMax, sizeT] at *
    omega
  have hhead : (fill (firstByte 0 16) []).head? = some 0 := rfl
  have hlength : leNat (((fill (firstByte 0 16) []).drop 8).take 8) = 0 := rfl
  refine (wp_bind _ _ _).mpr (wp_uninit_filled ⟨_, fits_firstByte 0 16, rfl⟩ ?_)
  rintro _ ⟨-, rfl⟩
  refine wp_filled (fits_firstByte 0).stream (wp_readN ?_)
  rw [List.take_nil, List.drop_nil]
  simp only [hhead, hlength, hmod]
  rw [if_neg (by simp)]
  refine wp_malloc (by omega) fun _ _ => (wp_bind _ _ _).mpr ((receiveLineContent_cut (by decide)).mono ?_)
  rintro _ _ ⟨⟨l, rfl⟩, rfl⟩
  exact ⟨_, _, rfl, rfl, rfl, rfl⟩

/-- The first call, when the stream ends in the name of the file. -/
theorem receiveLine_name {name : CString} {rest : Bytes} {Q : RecvLine → Bytes → Prop} (hk : 0 < k)
    (hkn : k ≤ 8 + name.bytes.length)
    (h : ∀ r, r.currentFileNameLen ≤ name.bytes.length → r.fileFinished = false →
      (receiveLineHeader fd r).Wp (Filled StreamEnv (firstByte b)) Q []) :
    (receiveLineFromMainFd fd mrMainReceiverInit).Wp (Filled StreamEnv (firstByte b)) Q
      ((sizeBytes name.bytes.length ++ name.bytes ++ rest).take k) := by
  have hfits := name.fits
  have hlen := sizeBytes_length name.bytes.length
  have hone := name.fits_size
  have hsize := Nat.lt_of_succ_lt hone
  have hle := leNat_cut (b := b) hsize hk
  have htake : ((sizeBytes name.bytes.length ++ name.bytes ++ rest).take k).take 8 =
      (sizeBytes name.bytes.length).take k := by
    rw [List.take_take, Nat.min_comm, ← List.take_take, List.append_assoc, List.take_left' hlen]
  -- of the name no more is left than its length
  have hdrop : (((sizeBytes name.bytes.length ++ name.bytes ++ rest).take k).drop 8).drop
      (leNat (fill (firstByte b 8) ((sizeBytes name.bytes.length).take k))) = [] := by
    refine List.drop_eq_nil_of_le ?_
    rw [List.length_drop, List.length_take]
    by_cases h8 : 8 ≤ k
    · rw [List.take_of_length_le (by omega), fill_full (by simp [firstByte, hlen]), leNat_sizeBytes hsize]
      omega
    · omega
  rw [receiveLineFromMainFd, if_pos (show mrMainReceiverInit.fileFinished = true from rfl)]
  refine (wp_bind _ _ _).mpr (wp_uninit_filled ⟨_, fits_firstByte b 8, rfl⟩ ?_)
  rintro _ ⟨-, rfl⟩
  refine (wp_bind _ _ _).mpr (wp_filled (fits_firstByte b).stream ((readN_spec _ _ _).mono ?_))
  rintro _ _ ⟨rfl, rfl⟩
  obtain ⟨c, cs, hc⟩ : ∃ c cs, (sizeBytes name.bytes.length).take k = c :: cs := by
    refine List.exists_cons_of_ne_nil fun h => ?_
    have := congrArg List.length h
    simp [hlen] at this
    omega
  rw [htake, hc]
  rw [hc] at hdrop hle
  have hmod : (leNat (fill (firstByte b 8) (c :: cs)) + 1) % sizeT = leNat (fill (firstByte b 8) (c :: cs)) + 1 := by
    apply Nat.mod_eq_of_lt
    omega
  simp only [hmod]
  refine (wp_bind _ _ _).mpr (wp_filled (fits_firstByte b).stream ((malloc_spec (by omega)).mono ?_))
  rintro _ _ ⟨⟨block, rfl, -⟩, rfl⟩
  refine (wp_bind _ _ _).mpr (wp_filled (fits_firstByte b).stream ((readN_spec _ _ _).mono ?_))
  rintro _ _ ⟨rfl, rfl⟩
  rw [hdrop]
  exact h _ hle rfl

/-- Whose next call returns a line, does that for ever. -/
theorem not_lineCalls {r : Receiver} {s s' : Bytes} {ls : List FileLine} {res : Int}
    (h : LineCalls (Filled StreamEnv (firstByte 0)) fd r s ls res s')
    (hw : (receiveLineFromMainFd fd r).Wp (Filled StreamEnv (firstByte 0)) (fun x s' => ∃ l r', x = .line l r' ∧
      r'.currentFileNameLen < ptrdiffMax ∧ r'.fileFinished = false ∧ s' = []) s) : False := by
  have hloop : ∀ {r : Receiver} {s : Bytes}, (receiveLineFromMainFd fd r).Wp (Filled StreamEnv (firstByte 0))
      (fun x s' => ∃ l r', x = .line l r' ∧ r'.currentFileNameLen < ptrdiffMax ∧ r'.fileFinished = false ∧ s' = []) s →
      LoopWp (Filled StreamEnv (firstByte 0)) (lineBlock fd) (fun x s' => ∃ l r', x = .line l r' ∧
        r'.currentFileNameLen < ptrdiffMax ∧ r'.fileFinished = false ∧ s' = []) 1 (lineBlock fd r) s := by
    intro r s hw
    refine (wp_bind _ _ _).mpr (hw.mono ?_)
    rintro _ _ ⟨l, r', rfl, h1, h2, rfl⟩
    exact ⟨l, r', rfl, h1, h2, rfl⟩
  induction h with
  | last hl hx =>
    obtain ⟨l, r', rfl, -⟩ := (hloop hw).run hl
    exact hx rfl
  | next hl _ ih =>
    obtain ⟨l, r', he, h1, h2, rfl⟩ := (hloop hw).run hl
    cases he
    refine ih ?_
    rw [receiveLineFromMainFd, if_neg (by simp [h2])]
    refine (receiveLineHeader_zero h1).mono ?_
    rintro _ _ ⟨l, r'', rfl, h3, h4, rfl⟩
    exact ⟨l, r'', rfl, h3 ▸ h1, h4.trans h2, rfl⟩

/-- **What `receive_line_from_main_fd` returns depends on bytes that were not read** whenever the stream ends in the name
of its first file: the calls end or not, as the variable of the header says. -/
theorem not_linesUnread (fd : Nat) {f : InputFile} {w : Bytes} (hf : FileWire f w) {k : Nat} (hk : 0 < k)
    (hkn : k ≤ 8 + f.path.bytes.length) : ¬ LinesUnread fd (w.take k) := by
  intro h
  obtain @⟨u, hl⟩ := hf
  have hends : LoopWp (Filled StreamEnv (firstByte 1)) (lineBlock fd) (fun x _ => ∃ r, x = .eof r) 2
      (lineBlock fd mrMainReceiverInit) ((sizeBytes f.path.bytes.length ++ f.path.bytes ++ u).take k) := by
    refine (wp_bind _ _ _).mpr (receiveLine_name hk hkn fun r _ _ => (receiveLineHeader_flagged r).mono ?_)
    rintro _ _ ⟨rfl, rfl⟩
    have heof : (receiveLineFromMainFd fd { r with fileFinished := true }).Wp StreamEnv _ [] := receiveLine_eof ⟨rfl, .nil⟩
    refine (wp_bind _ _ _).mpr ((wp_filled (fits_firstByte 1).stream heof).mono ?_)
    rintro _ _ ⟨r', rfl, -⟩
    exact ⟨r', rfl⟩
  obtain ⟨s', x, hx, r, rfl⟩ := hends.ends
  have hcalls := h (firstByte 1) (firstByte 0) (fits_firstByte 0) [] 1 s'
    (.last (x := .eof r) hx (by simp [RecvLine.result]))
  refine not_lineCalls hcalls (receiveLine_name hk hkn fun r hr hfin => ?_)
  refine (receiveLineHeader_zero (lt_of_le_of_lt hr f.path.fits)).mono ?_
  rintro _ _ ⟨l, r', rfl, h1, h2, rfl⟩
  exact ⟨l, r', rfl, h1 ▸ lt_of_le_of_lt hr f.path.fits, h2.trans hfin, rfl⟩

end Unread

/-! ## No receiver rejects a truncated stream -/

theorem flatMap_wire_cut (ms : List Msg) (m : Msg) (k : Nat) :
    ms.flatMap Msg.wire ++ m.wire.take k = ((ms ++ [m]).flatMap Msg.wire).take ((ms.flatMap Msg.wire).length + k) := by
  simp [List.take_append]

theorem not_pairsRejected (fd : Nat) (ms : List Msg) (m : Msg) (k : Nat) :
    ¬ PairsRejected fd ms (ms.flatMap Msg.wire ++ m.wire.take k) := by
  rintro ⟨⟨n, hn⟩, -⟩
  rw [flatMap_wire_cut] at hn
  exact (receivePairs_cut fd n _ _).not_wp (fun r _ hr hr' => hr hr'.1) hn

theorem not_outputRejected (job : Job) (old : Bytes) (ms : List Msg) (m : Msg) (k : Nat) :
    ¬ OutputRejected job old ms (ms.flatMap Msg.wire ++ m.wire.take k) := by
  rintro ⟨⟨n, hn⟩, -⟩
  rw [flatMap_wire_cut] at hn
  -- the header holds zeros at the beginning
  have hzero : Fits fun n => List.replicate n 0 := fun n => List.length_replicate
  obtain ⟨t, x, hl, rfl⟩ :=
    receiveOutput_cut hzero ⟨rfl, by decide, by decide⟩ job (ms ++ [m]) ((ms.flatMap Msg.wire).length + k) old
  exact absurd (hn.run (loop_of_filled hl)).1 (by decide)

theorem FileWires.append {fs : List InputFile} {f : InputFile} {ws w : Bytes} (hs : FileWires fs ws)
    (hf : FileWire f w) : FileWires (fs ++ [f]) (ws ++ w) := by
  induction hs with
  | nil =>
    have h : FileWires [f] (w ++ []) := .cons hf .nil
    rwa [List.append_nil] at h
  | @cons g fs v ws hg _ ih =>
    rw [List.append_assoc]
    exact .cons hg ih

theorem not_linesRejected (fd : Nat) {fs : List InputFile} {f : InputFile} {ws w : Bytes} (hs : FileWires fs ws)
    (hf : FileWire f w) (es : List FileLine) (k : Nat) : ¬ LinesRejected fd es (ws ++ w.take k) := by
  rintro ⟨⟨n, hn⟩, -⟩
  have hcut : ws ++ w.take k = (ws ++ w).take (ws.length + k) := by simp [List.take_append]
  have hr : ReadsOn fd mrMainReceiverInit (ws ++ w.take k) := by
    rw [hcut]
    exact readsOn_files (hs.append hf) _ rfl
  exact hr.not_linesEnd es n hn

/-- **No receiver rejects any truncated stream**: not the streams of pairs and of results that end in a message, and not
the streams of lines that end in a file, be it in its name, in a header, in a line or between them. -/
theorem truncated_streams (fd : Nat) (job : Job) (old : Bytes) :
    (∀ (ms : List Msg) (m : Msg) (k : Nat), 0 < k → k < m.wire.length →
      ¬ PairsRejected fd ms (ms.flatMap Msg.wire ++ m.wire.take k) ∧
      ¬ OutputRejected job old ms (ms.flatMap Msg.wire ++ m.wire.take k)) ∧
    ∀ (fs : List InputFile) (f : InputFile) (ws w : Bytes) (k : Nat), FileWires fs ws → FileWire f w →
      0 < k → k < w.length → ¬ LinesRejected fd (allLines fs ++ f.whole k) (ws ++ w.take k) :=
  ⟨fun ms m k _ _ => ⟨not_pairsRejected fd ms m k, not_outputRejected job old ms m k⟩,
    fun _ _ _ _ k hs hf _ _ => not_linesRejected fd hs hf _ k⟩

/-- A pair with a token of one byte and no value. -/
def shortPair : Msg := ⟨.a, .empty⟩

/-- A file without lines, on the wire. -/
def emptyWire : Bytes := sizeBytes 1 ++ [98] ++ (1 :: [0, 0, 0, 0, 0, 0, 0] ++ sizeBytes 0)

/-- Cut in the first message after its header, in the header of a second one, and in the name of a file. -/
theorem truncated_streams_short :
    ¬ PairsRejected 0 [] (shortPair.wire.take 16) ∧
      ¬ OutputRejected ⟨[], [], (3, 4), (5, 6), 1, 2⟩ [] [] (shortPair.wire.take 16) ∧
      ¬ OutputRejected ⟨[], [], (3, 4), (5, 6), 1, 2⟩ [] [shortPair] (shortPair.wire ++ shortPair.wire.take 5) ∧
      ∃ f : InputFile, f.path.bytes = [98] ∧ ¬ LinesRejected 0 [] (emptyWire.take 9) := by
  obtain ⟨hp, hl⟩ := truncated_streams 0 ⟨[], [], (3, 4), (5, 6), 1, 2⟩ []
  obtain ⟨h1, h2⟩ := hp [] shortPair 16 (by decide) (by decide)
  have h3 := (hp [shortPair] shortPair 5 (by decide) (by decide)).2
  let f : InputFile := ⟨⟨[98], by decide, by decide⟩, [], by decide, by decide⟩
  have hf : FileWire f emptyWire := ⟨.eof [0, 0, 0, 0, 0, 0, 0] rfl⟩
  exact ⟨h1, h2, h3, f, rfl, hl [] f [] emptyWire 9 .nil hf (by decide) (by decide)⟩

/-- **A pair that was cut after its header is received**: the token is a byte that was never sent, and the next call
returns 1. -/
theorem truncated_pair_received :
    Runs StreamEnv (shortPair.wire.take 16) (receivePairs 0 2) [] ([(some [7, 0], [])], 1) ∧
      ¬ PairsRejected 0 [] (shortPair.wire.take 16) := by
  refine ⟨?_, not_pairsRejected 0 [] shortPair 16⟩
  have hmay : (receivePairs 0 2).May StreamEnv (fun r s' => r = ([(some [7, 0], [])], 1) ∧ s' = [])
      (shortPair.wire.take 16) := by
    refine may_call (.sys (.val (.bytes (List.replicate 16 0)))) _ ⟨rfl, rfl⟩ ?_
    refine may_call (.sys (.val (.bytes (shortPair.wire.take 16)))) [] ⟨by simp, by decide, nofun⟩ ?_
    refine may_call (.sys (.val (.bytes [7, 9]))) [] ⟨by decide, by decide, rfl⟩ ?_
    refine may_call (.sys (.val (.bytes []))) [] ⟨rfl, by decide, fun _ => .inl rfl⟩ ?_
    refine may_call (.sys (.val (.bytes []))) [] ⟨by decide, by decide, rfl⟩ ?_
    refine may_call (.sys (.val (.bytes (List.replicate 16 0)))) [] ⟨rfl, rfl⟩ ?_
    refine may_call (.sys (.val (.bytes []))) [] ⟨rfl, by decide, fun _ => .inl rfl⟩ ?_
    exact ⟨_, _, .ret, rfl, rfl⟩
  obtain ⟨s', r, hr, rfl, rfl⟩ := hmay
  exact hr

end MrLib
