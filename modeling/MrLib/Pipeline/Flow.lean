import MrLib.Pipeline.System
import MrLib.Process.CalmRules

/-!
# What flows through the pipes

Each of the three processes does what it would do alone, on a stream that is given from the beginning: in every state of
the pipeline the mapper is in a state of `mapperSystem` on what the main process has written and anything that may follow
it, the reducer in one of `reducerSystem` on what the mapper has written, and the main process has come along a trace of
`workEnv` (`Piped`, `piped_of_reach`). Nothing follows once the writer has closed the pipe or has ended.
-/

namespace MrLib

open Conc Prog

/-! ## The calls of the main process -/

section Main

variable {d : Disk} {job : Job} {ended : Nat → Option Status} {m m' : MainFiles} {pipe pipe' F : Bytes} {gone : Bool}
  {e : Sys} {r : Ret Val}

/-- The other calls have nothing to do with the pipe, and write nothing to the mapper. -/
theorem mainServe_other (he : ∀ fd n, e ≠ .read fd n) (h : m.serve d job ended pipe e r = some (m', pipe')) :
    pipe' = pipe ∧ m'.out = m.out ∧ (m.closed = true → m'.closed = true) ∧
      (∀ pid ∈ m'.waited, pid ∈ m.waited ∨ (ended pid).isSome = true) ∧
      ∀ o q, ({ m with out := o } : MainFiles).serve d job ended q e r = some ({ m' with out := o }, q) := by
  cases e with
  | read fd n => exact absurd rfl (he fd n)
  | fopen f path =>
    cases f <;> cases r <;> try cases h
    case fopen.log.ok => exact ⟨rfl, rfl, id, fun _ => .inl, fun _ _ => rfl⟩
    all_goals
      simp only [MainFiles.serve] at h ⊢
      split at h
      · cases h
        simp_all
      · cases h
  | close fd =>
    cases r <;> cases h
    refine ⟨rfl, ?_⟩
    simp only [MainFiles.serve]
    split <;> simp_all
  | ferror f =>
    cases f <;> cases r <;> try cases h
    simp only [MainFiles.serve] at h ⊢
    split at h
    · cases h
      simp_all
    · cases h
  | fwrite bs | fclose f | semOpen | semClose | semUnlink | dup2 fd newfd | kill pid =>
    cases r <;> cases h
    simp_all [MainFiles.serve]
  | waitpid pid =>
    rcases r with _ | _ | _ | (_ | _ | _ | _ | _ | _ | status | _ | _)
    all_goals try cases h
    simp only [MainFiles.serve] at h ⊢
    split at h
    · rename_i hc
      cases h
      simp_all
    · cases h
  | stat path =>
    rcases r with _ | _ | _ | (_ | _ | _ | _ | _ | _ | _ | b | _)
    all_goals try cases h
    simp only [MainFiles.serve] at h ⊢
    split at h
    · split at h
      · cases h
        simp_all
      · cases h
    · cases h
  | scandir path =>
    rcases r with _ | _ | _ | (_ | _ | _ | _ | _ | _ | _ | _ | ns)
    all_goals try cases h
    all_goals
      simp only [MainFiles.serve] at h ⊢
      split at h
      · cases h
        simp_all
      · cases h
  | processMain child =>
    rcases r with _ | _ | _ | (_ | _ | _ | _ | _ | _ | _ | _ | _)
    all_goals cases h
    exact ⟨rfl, rfl, id, fun _ => .inl, fun _ _ => rfl⟩
  | fork child =>
    rcases r with _ | _ | _ | (_ | _ | _ | _ | _ | _ | _ | _ | _)
    all_goals try cases h
    simp only [MainFiles.serve] at h ⊢
    split at h
    · cases h
      simp_all
    · cases h
  | pipe id =>
    rcases r with _ | _ | _ | (_ | _ | _ | _ | _ | _ | _ | _ | _)
    all_goals try cases id <;> cases h
    cases id <;> simp only [MainFiles.serve] at h ⊢
    case mapperToReducer =>
      cases h
      exact ⟨rfl, rfl, fun h => h, fun _ => .inl, fun _ _ => rfl⟩
    all_goals
      split at h
      · cases h
        simp_all
      · cases h
  | uninit n =>
    rcases r with _ | _ | _ | (_ | bs | _ | _ | _ | _ | _ | _ | _)
    all_goals try cases h
    simp only [MainFiles.serve] at h ⊢
    split at h
    · cases h
      simp_all
    · cases h
  | malloc n =>
    obtain ⟨hv, hr⟩ := mainServe_malloc.mp h
    cases hv
    exact ⟨rfl, rfl, id, fun _ => .inl, fun _ _ => mainServe_malloc.mpr ⟨rfl, hr⟩⟩
  | getline =>
    rcases r with _ | _ | _ | (_ | bs | _ | _ | _ | _ | _ | _ | _)
    all_goals try cases h
    all_goals
      simp only [MainFiles.serve] at h ⊢
      split at h
      · cases h
        simp_all
      · cases h
  | _ => cases h

/-- What a call does when more follows in the pipe, and whatever has been written to the mapper. -/
theorem mainServe_append (h : m.serve d job ended pipe e r = some (m', pipe')) (hcut : cutShort gone e r = false)
    (hF : gone = true → F = []) (o : Bytes) : ({ m with out := o } : MainFiles).serve d job ended (pipe ++ F) e r =
      some ({ m' with out := o }, pipe' ++ F) := by
  cases e with
  | read fd n =>
    obtain ⟨bs, rfl, hfd, rfl, hlen, hnil, rfl⟩ := mainServe_read.mp h
    refine mainServe_read.mpr ⟨bs, rfl, hfd, List.append_assoc _ _ _, hlen, ?_, rfl⟩
    rintro rfl
    have hend : gone = true ∨ n = 0 := by
      by_cases hn : n = 0
      · exact .inr hn
      · exact .inl (by simpa [cutShort, hn] using hcut)
    rcases hnil rfl, hend with ⟨h0 | hn, hg | hn⟩
    · exact .inl (by rw [h0, hF hg]; rfl)
    all_goals exact .inr hn
  | _ =>
    obtain ⟨rfl, -, -, -, happ⟩ := mainServe_other (by simp) h
    exact happ o _

/-- What every call leaves alone. -/
theorem mainServe_keeps (h : m.serve d job ended pipe e r = some (m', pipe')) :
    pipe' <:+ pipe ∧ m'.out = m.out ∧ (m.closed = true → m'.closed = true) ∧
      ∀ pid ∈ m'.waited, pid ∈ m.waited ∨ (ended pid).isSome = true := by
  cases e with
  | read fd n =>
    obtain ⟨bs, -, -, rfl, -, -, rfl⟩ := mainServe_read.mp h
    exact ⟨List.suffix_append _ _, rfl, id, fun _ => .inl⟩
  | _ =>
    obtain ⟨rfl, hout, hclosed, hwaited, -⟩ := mainServe_other (by simp) h
    exact ⟨List.suffix_rfl, hout, hclosed, hwaited⟩

/-! ## The way of the main process -/

/-- The main process has come to `p` by the calls `τ`. -/
abbrev MainTrod (job : Job) : List (Io × IoRet) → IoProg (Except Leave MainPhase) → Prop :=
  Trod (mrStartWork job).run fun ph => (mrStartBlock ph).run

/-- The frame of the next call of `p`; of a `write_n`, `part` has been written. -/
inductive IoFrame.Of {α : Type} : IoProg α → Bytes → IoFrame α → Prop
  | log {level : Level} {format : String} {k : IoRet → IoProg α} : Of (.call (.log level format) k) [] (.log k)
  | write {fd : Nat} {part rest : Bytes} {k : IoRet → IoProg α} (h : rest ≠ []) :
      Of (.call (.writeN fd (part ++ rest)) k) part (.write fd (part ++ rest).length rest k)
  | sys {e : Sys} {k : IoRet → IoProg α} : Of (.call (.sys e) k) [] (.sys e k)

/-- Where the main process is when it has made the calls `τ` and, of a `write_n`, has written `part`. -/
inductive MainAt (job : Job) (τ : List (Io × IoRet)) : Bytes → IoFrame (Except Leave MainPhase) ⊕ Leave → Prop
  | call {p : IoProg (Except Leave MainPhase)} {part : Bytes} {f : IoFrame (Except Leave MainPhase)}
      (h : MainTrod job τ p) (hf : f.Of p part) : MainAt job τ part (.inl f)
  | stuck {k : IoRet → IoProg (Except Leave MainPhase)} : MainAt job τ [] (.inl (.sys .stuck k))
  | left {l : Leave} (h : MainTrod job τ (.ret (.error l))) : MainAt job τ [] (.inr l)

/-- The calls `τ'` do no more than `τ`. -/
def NoMore (d : Disk) (job : Job) (τ τ' : List (Io × IoRet)) : Prop :=
  ∀ v v', Walks (workEnv d job) v τ v' → Walks (workEnv d job) v τ' v'

/-- A program comes to its first call that is one, or to its end. -/
theorem trod_settle : ∀ {p : IoProg (Except Leave MainPhase)} {τ : List (Io × IoRet)}, MainTrod job τ p →
    ∃ τ', NoMore d job τ τ' ∧ match settle p with
      | .inl f => ∃ q, MainTrod job τ' q ∧ f.Of q []
      | .inr x => MainTrod job τ' (.ret x)
  | .ret x, τ, h => ⟨τ, fun _ _ => id, h⟩
  | .call (.log level format) k, τ, h => ⟨τ, fun _ _ => id, _, h, .log⟩
  | .call (.writeN fd []) k, τ, h => by
    obtain ⟨τ', hs, ht⟩ := trod_settle (h.call (.int 0))
    exact ⟨τ', fun v v' hw => hs v v' (hw.snoc ⟨fun hne => absurd rfl hne, rfl, by simp⟩), ht⟩
  | .call (.writeN fd (b :: bs)) k, τ, h => 
    ⟨τ, fun _ _ => id, _, h, @IoFrame.Of.write _ fd [] (b :: bs) k (List.cons_ne_nil b bs)⟩
  | .call (.sys e) k, τ, h => ⟨τ, fun _ _ => id, _, h, .sys⟩

theorem trod_settleMain {p : IoProg (Except Leave MainPhase)} {τ : List (Io × IoRet)} (h : MainTrod job τ p) :
    ∃ τ', NoMore d job τ τ' ∧ MainAt job τ' [] (settleMain p) := by
  obtain ⟨τ', hs, ht⟩ := trod_settle (d := d) h
  unfold settleMain
  cases hp : settle p with
  | inl f =>
    rw [hp] at ht
    obtain ⟨q, hq, hf⟩ := ht
    exact ⟨τ', hs, .call hq hf⟩
  | inr x =>
    rw [hp] at ht
    cases x with
    | error l => exact ⟨τ', hs, .left ht⟩
    | ok ph =>
      obtain ⟨τ2, hs2, ht2⟩ := trod_settle (d := d) (Trod.next ht : MainTrod job τ' _)
      refine ⟨τ2, fun v v' hw => hs2 v v' (hs v v' hw), ?_⟩
      dsimp only
      cases hb : settle (mrStartBlock ph).run with
      | inl f =>
        rw [hb] at ht2
        obtain ⟨q, hq, hf⟩ := ht2
        exact .call hq hf
      | inr x =>
        rw [hb] at ht2
        cases x with
        | error l => exact .left ht2
        | ok ph => exact .stuck

/-- The calls `τ` lead to where the main process is, if `F` follows in the pipe from the reducer, from which `took` has
been taken. The bytes that it has written are `o` and a part of a `write_n`. -/
structure Came (d : Disk) (job : Job) (m : MainState) (got pipe : Bytes) (gone : Bool) : Prop where
  way : ∃ τ o part, MainAt job τ part m.at_ ∧ m.files.out = o ++ part ∧ ∀ F, (gone = true → F = []) →
    Walks (workEnv d job) (.start, got ++ F) τ ({ m.files with out := o }, pipe ++ F)

/-- **A step of the main process.** -/
theorem Came.step {m m' : MainState} {got : Bytes} (h : Came d job m got pipe gone)
    (hs : m.step d job ended gone pipe r = some (m', pipe')) : Came d job m' got pipe' gone := by
  obtain ⟨τ, o, part, hat, hout, hw⟩ := h.way
  obtain ⟨place, files⟩ := m
  cases hat with
  | left h => cases hs
  | stuck =>
    simp only [MainState.step] at hs
    split at hs
    · cases hs
    · cases r <;> cases hs
  | call ht hf =>
    cases hf with
    | @log level format k =>
      simp only [MainState.step] at hs
      cases r with
      | ok =>
        cases hs
        obtain ⟨τ', hmore, hat'⟩ := trod_settleMain (d := d) (ht.call (.int 0))
        exact ⟨τ', o, [], hat', hout, fun F hF => hmore _ _ ((hw F hF).snoc ⟨.inl rfl, rfl⟩)⟩
      | _ => cases hs
    | @write fd part rest k hne =>
      simp only [MainState.step] at hs
      rcases r with _ | _ | _ | (c | _ | _ | _ | _ | _ | _ | _ | _)
      all_goals try cases hs
      simp only at hs
      split at hs
      · rename_i hc
        obtain ⟨hfd, -, -, hc⟩ := hc
        cases hs
        dsimp only at hout hw ⊢
        split
        · rename_i hle
          obtain rfl : c = rest.length := Nat.le_antisymm hc hle
          obtain ⟨τ', hmore, hat'⟩ := trod_settleMain (d := d) (ht.call (.int (part ++ rest).length))
          refine ⟨τ', o ++ (part ++ rest), [], hat', ?_, fun F hF => hmore _ _ ((hw F hF).snoc ⟨fun _ => hfd, rfl, rfl⟩)⟩
          simp [hout]
        · rename_i hle
          have hrest : rest.drop c ≠ [] := by
            rw [Ne, List.drop_eq_nil_iff]
            exact hle
          have hof := @IoFrame.Of.write _ fd (part ++ rest.take c) (rest.drop c) k hrest
          rw [List.append_assoc, List.take_append_drop] at hof
          exact ⟨τ, o, part ++ rest.take c, .call ht hof, by simp [hout], hw⟩
      · cases hs
    | @sys e k =>
      simp only [MainState.step] at hs
      split at hs
      · cases hs
      rename_i hcut
      obtain ⟨v, hv, hs⟩ := Option.map_eq_some_iff.mp hs
      cases hs
      have hout : files.out = o := by simpa using hout
      have hkeep := (mainServe_keeps hv).2.1
      obtain ⟨τ', hmore, hat'⟩ := trod_settleMain (d := d) (ht.call (.sys r))
      refine ⟨τ', o, [], hat', by simp [hkeep, hout],
        fun F hF => hmore _ _ ((hw F hF).snoc ⟨r, rfl, .inl ⟨ended, ?_⟩⟩)⟩
      exact mainServe_append hv (by simpa using hcut) hF o

/-- More has come through the pipe. -/
theorem Came.more {m : MainState} {got x : Bytes} {gone' : Bool} (h : Came d job m got pipe gone)
    (hx : gone = true → x = [] ∧ gone' = true) : Came d job m (got ++ x) (pipe ++ x) gone' := by
  obtain ⟨τ, o, part, hat, hout, hw⟩ := h.way
  refine ⟨τ, o, part, hat, hout, fun F hF => ?_⟩
  rw [List.append_assoc, List.append_assoc]
  refine hw (x ++ F) fun hg => ?_
  rw [(hx hg).1, hF (hx hg).2, List.append_nil]

/-- What every step leaves alone. Nothing is written when the pipe to the mapper has been closed. -/
theorem mainStep_keeps {m m' : MainState} (h : m.step d job ended gone pipe r = some (m', pipe')) :
    pipe' <:+ pipe ∧ (∃ x, m'.files.out = m.files.out ++ x ∧ (m.files.closed = true → x = [])) ∧
      (m.files.closed = true → m'.files.closed = true) ∧
      ∀ pid ∈ m'.files.waited, pid ∈ m.files.waited ∨ (ended pid).isSome = true := by
  unfold MainState.step at h
  split at h
  · cases h
  · split at h
    · cases h
      exact ⟨List.suffix_rfl, ⟨[], by simp⟩, id, fun _ => .inl⟩
    · cases h
  · split at h
    · split at h
      · rename_i hc
        cases h
        exact ⟨List.suffix_rfl, ⟨_, rfl, by simp [hc.2.1]⟩, id, fun _ => .inl⟩
      · cases h
    · cases h
  · split at h
    · cases h
    · obtain ⟨v, hv, h⟩ := Option.map_eq_some_iff.mp h
      cases h
      obtain ⟨h1, h2, h3, h4⟩ := mainServe_keeps hv
      exact ⟨h1, ⟨[], by simp [h2]⟩, h3, h4⟩

end Main

/-! ## The children -/

section Child

variable {ω Φ : Type} {C : ProcessCode ω Φ} {args : PoolArgs} {size : Nat} {user : Sys → User}
  {s s' : PoolState ω Φ} {got pipe pipe' x : Bytes} {gone gone' : Bool} {a : Act Tid Val}

/-- A child runs as it would alone, if what has come through its standard input is followed by anything. -/
structure Alone (C : ProcessCode ω Φ) (args : PoolArgs) (size : Nat) (user : Sys → User) (s : PoolState ω Φ)
    (got pipe : Bytes) (gone : Bool) : Prop where
  reach : ∀ F, (gone = true → F = []) → Reach (C.system args size (got ++ F)) (Calm C user) ⟨s, pipe ++ F⟩

/-- More has come through the pipe. -/
theorem Alone.more (h : Alone C args size user s got pipe gone) (hx : gone = true → x = [] ∧ gone' = true) :
    Alone C args size user s (got ++ x) (pipe ++ x) gone' := by
  refine ⟨fun F hF => ?_⟩
  rw [List.append_assoc, List.append_assoc]
  refine h.reach (x ++ F) fun hg => ?_
  rw [(hx hg).1, hF (hx hg).2, List.append_nil]

/-- What a call of the system returns when more follows in the standard input. -/
theorem serve_append {e : Sys} {r : Ret Val} {F : Bytes} (h : serve pipe e r = some pipe')
    (hcut : cutShort gone e r = false) (hF : gone = true → F = []) :
    serve (pipe ++ F) e r = some (pipe' ++ F) ∧ pipe' <:+ pipe := by
  by_cases hread : ∃ fd n bs, e = .read fd n ∧ r = .val (.bytes bs)
  · obtain ⟨fd, n, bs, rfl, rfl⟩ := hread
    obtain ⟨rfl, hlen, hnil⟩ := serve_read.mp h
    refine ⟨serve_read.mpr ⟨List.append_assoc _ _ _, hlen, ?_⟩, List.suffix_append _ _⟩
    rintro rfl
    have hend : gone = true ∨ n = 0 := by
      by_cases hn : n = 0
      · exact .inr hn
      · exact .inl (by simpa [cutShort, hn] using hcut)
    rcases hnil rfl, hend with ⟨h0 | hn, hg | hn⟩
    · exact .inl (by rw [h0, hF hg]; rfl)
    all_goals exact .inr hn
  · unfold serve at h ⊢
    split at h
    · exact absurd ⟨_, _, _, rfl, rfl⟩ hread
    · split at h
      · rename_i hm
        cases h
        exact ⟨if_pos hm, List.suffix_rfl⟩
      · cases h

theorem serves_append {h : Hosted ω Φ} {F : Bytes} (hs : C.serves h a = some pipe')
    (hcut : ∀ t r e, a = .ret t r → (runtime C.client).call (h.threads.loc t) = .ext e → cutShort gone e r = false)
    (hF : gone = true → F = []) :
    C.serves ⟨h.threads, h.stdin ++ F⟩ a = some (pipe' ++ F) ∧ pipe' <:+ h.stdin := by
  cases a with
  | ret t r =>
    simp only [ProcessCode.serves] at hs ⊢
    cases hc : (runtime C.client).call (h.threads.loc t) with
    | ext e =>
      simp only [hc] at hs ⊢
      exact serve_append hs (hcut t r e rfl hc) hF
    | _ =>
      simp only [hc] at hs ⊢
      cases hs
      exact ⟨rfl, List.suffix_rfl⟩
  | _ =>
    cases hs
    exact ⟨rfl, List.suffix_rfl⟩

/-- A step of a child is a step of the process when it has not ended, and no read is cut short. -/
theorem pipedStep_spec {room : Nat} {h h' : Hosted ω Φ} (hs : C.pipedStep room gone h a = some h') :
    h.threads.exitCode.isSome = false ∧ C.step room h a = some h' ∧
      ∀ t r e, a = .ret t r → (runtime C.client).call (h.threads.loc t) = .ext e → cutShort gone e r = false := by
  unfold ProcessCode.pipedStep at hs
  split at hs
  · cases hs
  rename_i hexit
  refine ⟨by simpa using hexit, ?_⟩
  cases a with
  | ret t r =>
    simp only at hs
    cases hc : (runtime C.client).call (h.threads.loc t) with
    | ext e =>
      simp only [hc] at hs
      split at hs
      · cases hs
      rename_i hcut
      refine ⟨hs, ?_⟩
      rintro _ _ _ ⟨⟩ hc'
      rw [hc] at hc'
      cases hc'
      simpa using hcut
    | _ =>
      simp only [hc] at hs
      refine ⟨hs, ?_⟩
      rintro _ _ _ ⟨⟩ hc'
      rw [hc] at hc'
      cases hc'
  | _ =>
    refine ⟨hs, ?_⟩
    rintro _ _ _ ⟨⟩

/-- A step of a child is one that it makes when more follows in its standard input. -/
theorem pipedStep_append {room : Nat} {h h' : Hosted ω Φ} {F : Bytes} (hs : C.pipedStep room gone h a = some h')
    (hF : gone = true → F = []) :
    C.step room ⟨h.threads, h.stdin ++ F⟩ a = some ⟨h'.threads, h'.stdin ++ F⟩ ∧ h'.stdin <:+ h.stdin := by
  obtain ⟨-, hstep, hcut⟩ := pipedStep_spec hs
  obtain ⟨hserve, hsuf⟩ := serves_append (serves_of_step hstep) hcut hF
  refine ⟨?_, hsuf⟩
  unfold ProcessCode.step at hstep ⊢
  rw [hserve]
  split at hstep
  · rename_i stdin t _ hmove
    simp only [hmove]
    split at hstep
    · rename_i hroom
      cases hstep
      exact if_pos hroom
    · cases hstep
  · cases hstep

/-- **A step of a child.** -/
theorem Alone.step {s'' : Hosted ω Φ} (h : Alone C args size user s got pipe gone)
    (hs : C.pipedStep (args.room size) gone ⟨s, pipe⟩ a = some s'') (hc : Calm C user ⟨s, pipe⟩ a) :
    Alone C args size user s''.threads got s''.stdin gone :=
  ⟨fun F hF => .step (h.reach F hF) ⟨hc.ok, hc.user⟩ (pipedStep_append hs hF).1⟩

theorem send_out (o : Stdout) (cs : List Bytes) : (EmitLoc.send o cs).2.out = o.out := by cases cs <;> rfl

/-- An emit adds to the standard output. -/
theorem emit_next_grows (m : Msg) (o : Stdout) (e : EmitLoc) (r : Ret Val) : ∃ x, (e.next m o r).2.out = o.out ++ x := by
  cases e with
  | lock =>
    cases r with
    | ok => exact ⟨[], by simp [EmitLoc.next, send_out]⟩
    | _ => exact ⟨[], (List.append_nil _).symm⟩
  | write c cs =>
    rcases r with _ | _ | _ | (k | _ | _ | _ | _ | _ | _ | _ | _)
    · exact ⟨[], (List.append_nil _).symm⟩
    · exact ⟨[], (List.append_nil _).symm⟩
    · exact ⟨[], (List.append_nil _).symm⟩
    · simp only [EmitLoc.next]
      split
      · exact ⟨c, by simp [send_out]⟩
      · exact ⟨c.take k, rfl⟩
    all_goals exact ⟨[], (List.append_nil _).symm⟩
  | unlock res => cases r <;> exact ⟨[], (List.append_nil _).symm⟩
  | _ => exact ⟨[], (List.append_nil _).symm⟩

theorem next_grows {T β μ K : Type} [DecidableEq T] {es : Nat} (cl : Client T β es μ K) (l : TLoc β es K) (t : T) (r : Ret Val)
    (x : Mem β μ) : ∃ y, ((runtime cl).next t l r x).2.stdout.out = x.stdout.out ++ y := by
  by_cases hl : ∀ m e f, l ≠ .emit m e f
  · rw [(next_stdout cl hl t r x).1]
    exact ⟨[], (List.append_nil _).symm⟩
  · simp only [ne_eq, not_forall, not_not] at hl
    obtain ⟨m, e, f, rfl⟩ := hl
    rw [(next_of_emit cl m e f t r x).1]
    exact emit_next_grows m x.stdout e r

/-- A step of a process adds to its standard output. -/
theorem step_grows {room : Nat} {h h' : Hosted ω Φ} (hs : C.step room h a = some h') :
    ∃ x, h'.threads.mem.stdout.out = h.threads.mem.stdout.out ++ x := by
  cases (ProcessCode.step_spec hs).1.move with
  | stay ha hl hm => exact ⟨[], by rw [hm, List.append_nil]⟩
  | call t r hr ha hx hl hm =>
    rw [hm]
    exact next_grows _ _ _ _ _
  | create t u ha hc hu hl hm =>
    rw [hm]
    exact next_grows _ _ _ _ _

end Child

/-! ## The pipeline -/

section Pipes

variable {P : Plant} {user : Sys → User} {s s' : Pipeline}

/-- **Each process is where it would be alone**, and the main process has waited for children that have ended. -/
structure Piped (P : Plant) (user : Sys → User) (s : Pipeline) : Prop where
  mapperTook : s.mapperTook ≤ s.main.files.out.length
  reducerTook : s.reducerTook ≤ s.mapper.mem.stdout.out.length
  mainTook : s.mainTook ≤ s.reducer.mem.stdout.out.length
  main : Came P.disk P.job s.main s.reducer.mem.stdout.out s.toMain s.reducer.exitCode.isSome
  mapper : Alone (mapperCode P.mapper) P.mapper sizeofFileLine user s.mapper s.main.files.out s.toMapper
    s.main.files.closed
  reducer : Alone (reducerCode P.reducer) P.reducer sizeofPtr user s.reducer s.mapper.mem.stdout.out s.toReducer
    s.mapper.exitCode.isSome
  waited : ∀ pid ∈ s.main.files.waited, (s.ended P pid).isSome = true

/-- What is left when some bytes have been taken. -/
theorem drop_taken {written left : Bytes} {took : Nat} (h : took ≤ written.length) (hl : left <:+ written.drop took) :
    took + ((written.drop took).length - left.length) ≤ written.length ∧
      written.drop (took + ((written.drop took).length - left.length)) = left := by
  obtain ⟨x, hx⟩ := hl
  have hlen : (written.drop took).length - left.length = x.length := by
    rw [← hx, List.length_append]
    omega
  have hle : x.length ≤ (written.drop took).length := by
    rw [← hx, List.length_append]
    omega
  rw [List.length_drop] at hle
  refine ⟨by omega, ?_⟩
  rw [hlen, ← List.drop_drop, ← hx, List.drop_left]

theorem piped_init : Piped P user (pipeline P).init := by
  obtain ⟨τ, hmore, hat⟩ := trod_settleMain (d := P.disk) (Trod.start : MainTrod P.job [] (mrStartWork P.job).run)
  refine ⟨Nat.le_refl 0, Nat.zero_le _, Nat.zero_le _, ⟨τ, [], [], hat, rfl, fun F _ => hmore _ _ .nil⟩, ?_, ?_,
    fun pid h => absurd h List.not_mem_nil⟩
  · exact ⟨fun F _ => .init⟩
  · exact ⟨fun F _ => .init⟩

theorem Piped.mainStep (h : Piped P user s) {r : Ret Val} (hs : s.move P (.main r) = some s') : Piped P user s' := by
  obtain ⟨⟨m, pipe⟩, hm, rfl⟩ := Option.map_eq_some_iff.mp hs
  obtain ⟨hsuf, ⟨x, hx, hclosed⟩, hclosing, hwaited⟩ := mainStep_keeps hm
  obtain ⟨htook, hdrop⟩ := drop_taken h.mainTook hsuf
  have hmain : s.toMapper ++ x = m.files.out.drop s.mapperTook := by
    rw [hx, List.drop_append_of_le_length h.mapperTook]
    rfl
  refine ⟨?_, h.reducerTook, htook, ?_, ?_, h.reducer, fun pid hp => (hwaited pid hp).elim (h.waited pid) id⟩
  · show s.mapperTook ≤ m.files.out.length
    rw [hx, List.length_append]
    exact Nat.le_add_right_of_le h.mapperTook
  · have := h.main.step hm
    rw [← hdrop] at this
    exact this
  · have : Alone (mapperCode P.mapper) P.mapper sizeofFileLine user s.mapper (s.main.files.out ++ x) (s.toMapper ++ x)
        m.files.closed := h.mapper.more fun hc => ⟨hclosed hc, hclosing hc⟩
    rw [← hx, hmain] at this
    exact this

theorem Piped.mapperStep (h : Piped P user s) {a : Act Tid Val} (hc : CalmPipe P user s (.mapper a))
    (hs : s.move P (.mapper a) = some s') : Piped P user s' := by
  obtain ⟨⟨t, stdin⟩, ht, rfl⟩ := Option.map_eq_some_iff.mp hs
  obtain ⟨hexit, hstep, -⟩ := pipedStep_spec ht
  obtain ⟨x, hx⟩ := step_grows hstep
  obtain ⟨htook, hdrop⟩ := drop_taken h.mapperTook (pipedStep_append ht fun _ => rfl).2
  have hexit : s.mapper.exitCode.isSome = false := hexit
  have hx : t.mem.stdout.out = s.mapper.mem.stdout.out ++ x := hx
  have hpipe : s.toReducer ++ x = t.mem.stdout.out.drop s.reducerTook := by
    rw [hx, List.drop_append_of_le_length h.reducerTook]
    rfl
  refine ⟨htook, ?_, h.mainTook, h.main, ?_, ?_, fun pid hp => ?_⟩
  · show s.reducerTook ≤ t.mem.stdout.out.length
    rw [hx, List.length_append]
    exact Nat.le_add_right_of_le h.reducerTook
  · have := h.mapper.step ht hc
    rw [← hdrop] at this
    exact this
  · have : Alone (reducerCode P.reducer) P.reducer sizeofPtr user s.reducer (s.mapper.mem.stdout.out ++ x)
        (s.toReducer ++ x) t.exitCode.isSome := h.reducer.more fun hg => absurd hg (by rw [hexit]; decide)
    rw [← hx, hpipe] at this
    exact this
  · have := h.waited pid hp
    unfold Pipeline.ended at this ⊢
    split at this
    · rw [Option.isSome_map, hexit] at this
      cases this
    · rename_i hne
      rw [if_neg hne]
      exact this

theorem Piped.reducerStep (h : Piped P user s) {a : Act Tid Val} (hc : CalmPipe P user s (.reducer a))
    (hs : s.move P (.reducer a) = some s') : Piped P user s' := by
  obtain ⟨⟨t, stdin⟩, ht, rfl⟩ := Option.map_eq_some_iff.mp hs
  obtain ⟨hexit, hstep, -⟩ := pipedStep_spec ht
  obtain ⟨x, hx⟩ := step_grows hstep
  obtain ⟨htook, hdrop⟩ := drop_taken h.reducerTook (pipedStep_append ht fun _ => rfl).2
  have hexit : s.reducer.exitCode.isSome = false := hexit
  have hx : t.mem.stdout.out = s.reducer.mem.stdout.out ++ x := hx
  have hpipe : s.toMain ++ x = t.mem.stdout.out.drop s.mainTook := by
    rw [hx, List.drop_append_of_le_length h.mainTook]
    rfl
  refine ⟨h.mapperTook, htook, ?_, ?_, h.mapper, ?_, fun pid hp => ?_⟩
  · show s.mainTook ≤ t.mem.stdout.out.length
    rw [hx, List.length_append]
    exact Nat.le_add_right_of_le h.mainTook
  · have : Came P.disk P.job s.main (s.reducer.mem.stdout.out ++ x) (s.toMain ++ x) t.exitCode.isSome :=
      h.main.more fun hg => absurd hg (by rw [hexit]; decide)
    rw [← hx, hpipe] at this
    exact this
  · have := h.reducer.step ht hc
    rw [← hdrop] at this
    exact this
  · have := h.waited pid hp
    unfold Pipeline.ended at this ⊢
    split at this
    · rename_i he
      rw [if_pos he]
      exact this
    · split at this
      · rw [Option.isSome_map, hexit] at this
        cases this
      · cases this

/-- **In every state of the pipeline** each process is where it would be alone. -/
theorem piped_of_reach (h : Reach (pipeline P) (CalmPipe P user) s) : Piped P user s := by
  refine h.inv piped_init fun s a s' hi hc hs => ?_
  simp only [pipeline] at hs
  split at hs
  · rename_i s1 hm
    split at hs
    · cases hs
      cases a with
      | main r => exact hi.mainStep hm
      | mapper a => exact hi.mapperStep hc hm
      | reducer a => exact hi.reducerStep hc hm
    · cases hs
  · cases hs

end Pipes

end MrLib
