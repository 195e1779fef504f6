import MrLib.Process.Calls
import MrLib.Reducer.Grouping

/-!
# The collection loop in the reducer process

`collect` is the collection loop alone, as sequential code; in the process an iteration is the piece `reducerCollect`, which
also records the pair. Both make the same calls: an iteration of one is an iteration of the other (`runs_reducerCollect`),
and so are `n` of them (`blocks_collect`). So the table that the process has collected is the table of `collect`, of which
`Reducer.Grouping` says what is in it.
-/

namespace MrLib

open Conc Prog

variable {ω S α β : Type} {env : S → Io → IoRet → S → Prop} {s s' : S}

/-- The calls of sequential code in a thread; what the thread records changes nothing, and it does not make other calls. -/
def threadEnv (env : S → Io → IoRet → S → Prop) (s : S) (c : PCall ω) (r : PRet ω) (s' : S) : Prop :=
  match c with
  | .io c => ∃ r0, env s c r0 s' ∧ r = r0.inThread
  | .note _ => r = .done ∧ s' = s
  | _ => False

theorem runs_threadEnv {p : IoProg α} {a : α} :
    Runs (threadEnv env) s (inThread p : ThreadProg ω α) s' a ↔ Runs env s p s' a := by
  induction p generalizing s with
  | ret b => exact runs_ret.trans runs_ret.symm
  | call c k ih =>
    rw [inThread, runs_call, runs_call]
    constructor
    · rintro ⟨_, s₁, ⟨r0, he, rfl⟩, hr⟩
      refine ⟨r0, s₁, he, ?_⟩
      cases r0 <;> exact (ih _).mp hr
    · rintro ⟨r0, s₁, he, hr⟩
      refine ⟨_, s₁, ⟨r0, he, rfl⟩, ?_⟩
      cases r0 <;> exact (ih _).mpr hr

/-- Sequential code, and what follows it. -/
theorem runs_threadIo {p : IoProg β} {k : β → Th ω α} {x : Except Int α} :
    Runs (threadEnv env) s ((liftM (inThread p : ThreadProg ω β) : Th ω β) >>= k).run s' x ↔
      ∃ s₁ b, Runs env s p s₁ b ∧ Runs (threadEnv env) s₁ (k b).run s' x := by
  change Runs (threadEnv env) s ((inThread p >>= fun b => Prog.ret (Except.ok b)) >>= _ : ThreadProg ω (Except Int α)) s' x ↔ _
  simp only [runs_bind, runs_ret]
  constructor
  · rintro ⟨s₁, _, ⟨_, b, hp, rfl, rfl⟩, hk⟩
    exact ⟨s₁, b, runs_threadEnv.mp hp, hk⟩
  · rintro ⟨s₁, b, hp, hk⟩
    exact ⟨s₁, _, ⟨s₁, b, runs_threadEnv.mpr hp, rfl, rfl⟩, hk⟩

theorem runs_threadNote {e : Event ω} {k : Unit → Th ω α} {x : Except Int α} :
    Runs (threadEnv env) s (note e >>= k).run s' x ↔ Runs (threadEnv env) s (k ()).run s' x := by
  change Runs (threadEnv env) s (.call (.note e) _) s' x ↔ _
  rw [runs_call]
  constructor
  · rintro ⟨_, _, ⟨rfl, rfl⟩, h⟩
    exact h
  · exact fun h => ⟨_, _, ⟨rfl, rfl⟩, h⟩

/-! ## One iteration -/

/-- What the process does after an iteration. -/
def reducerCollected (args : PoolArgs) (tb : Table) : CollectStep → Th Ptr ReducerPhase
  | .pair _ _ tb => pure (.collect tb)
  | .eof => reducerProcess args tb
  | .failed => collectionFailed

/-- **An iteration of the collection loop** in the process. -/
theorem runs_reducerCollect {args : PoolArgs} {tb : Table} {x : Except Int ReducerPhase} :
    Runs (threadEnv env) s (reducerCollect args tb).run s' x ↔
      ∃ s₁ y, Runs env s (collectStep tb) s₁ y ∧ Runs (threadEnv env) s₁ (reducerCollected args tb y).run s' x := by
  refine runs_threadIo.trans ?_
  simp only [collectStep, runs_bind]
  constructor
  · rintro ⟨s₁, y, hy, hx⟩
    cases y with
    | pair token value =>
      obtain ⟨s₂, r, hr, hx⟩ := runs_threadIo.mp (runs_threadNote.mp hx)
      cases r with
      | none => exact ⟨s₂, .failed, ⟨s₁, _, hy, runs_bind.mpr ⟨s₂, _, hr, .ret⟩⟩, hx⟩
      | some tb' => exact ⟨s₂, .pair token value tb', ⟨s₁, _, hy, runs_bind.mpr ⟨s₂, _, hr, .ret⟩⟩, hx⟩
    | eof => exact ⟨s₁, .eof, ⟨s₁, _, hy, .ret⟩, hx⟩
    | failed => exact ⟨s₁, .failed, ⟨s₁, _, hy, .ret⟩, hx⟩
  · rintro ⟨s₂, y, ⟨s₁, z, hz, hy⟩, hx⟩
    refine ⟨s₁, z, hz, ?_⟩
    cases z with
    | pair token value =>
      obtain ⟨s₃, r, hr, hy⟩ := runs_bind.mp hy
      refine runs_threadNote.mpr (runs_threadIo.mpr ⟨s₃, r, hr, ?_⟩)
      cases r with
      | none =>
        obtain ⟨rfl, rfl⟩ := runs_ret.mp hy
        exact hx
      | some tb' =>
        obtain ⟨rfl, rfl⟩ := runs_ret.mp hy
        exact hx
    | eof =>
      obtain ⟨rfl, rfl⟩ := runs_ret.mp hy
      exact hx
    | failed =>
      obtain ⟨rfl, rfl⟩ := runs_ret.mp hy
      exact hx

/-- What is left after the last iteration does not come to a cut again. -/
theorem not_cut {f : Th Ptr ReducerPhase} (h : OnlyCalls (fun c => c.serving = true) (fun _ => False) (fun _ => True) f)
    {ph : ReducerPhase} : ¬ Runs (threadEnv env) s f.run s' (.ok ph) := fun hr => h.runs hr

theorem reducerProcess_leaves (args : PoolArgs) (tb : Table) :
    OnlyCalls (fun c => c.serving = true) (fun _ => False) (fun _ => True) (reducerProcess args tb) :=
  (onlyCalls_reducerAllocate args common_serving setsUp_serving (fun _ => rfl) tb).bind fun x =>
    onlyCalls_reducerStart args x.1 x.2 tb common_serving trivial fun _ _ => ⟨rfl, fun _ => rfl⟩

theorem collectionFailed_leaves :
    OnlyCalls (fun c => c.serving = true) (fun _ => False) (fun _ => True) collectionFailed :=
  (onlyCalls_mrLogError common_serving _).bind fun _ => onlyCalls_returns trivial

/-- The process goes on with the next iteration exactly when the loop does. -/
theorem goes_on {args : PoolArgs} {tb : Table} {ph : ReducerPhase} :
    Runs (threadEnv env) s (reducerCollect args tb).run s' (.ok ph) ↔
      ∃ token value tb', ph = .collect tb' ∧ Runs env s (collectStep tb) s' (.pair token value tb') := by
  rw [runs_reducerCollect]
  constructor
  · rintro ⟨s₁, y, hy, hx⟩
    cases y with
    | pair token value tb' =>
      obtain ⟨rfl, hph⟩ := runs_ret.mp hx
      cases hph
      exact ⟨token, value, tb', rfl, hy⟩
    | eof => exact absurd hx (not_cut (reducerProcess_leaves args tb))
    | failed => exact absurd hx (not_cut collectionFailed_leaves)
  · rintro ⟨token, value, tb', rfl, h⟩
    exact ⟨s', _, h, .ret⟩

/-! ## The loop -/

/-- `n` pieces of a thread function, one after the other. -/
def Blocks {Φ : Type} (env : S → PCall ω → PRet ω → S → Prop) (body : Φ → Th ω Φ) : Nat → S → Φ → S → Φ → Prop
  | 0, s, ph, s', ph' => s' = s ∧ ph' = ph
  | n + 1, s, ph, s', ph' => ∃ s₁ ph₁, Runs env s (body ph).run s₁ (.ok ph₁) ∧ Blocks env body n s₁ ph₁ s' ph'

/-- **The collection loop** in the process: `n` of its pieces are `n` iterations of `collect`. -/
theorem blocks_collect {args : PoolArgs} {ph : ReducerPhase} : ∀ (n : Nat) {tb : Table} {k : Nat} {s : S},
    Blocks (threadEnv env) (reducerCode args).body n s (.collect tb) s' ph ↔
      ∃ tb', ph = .collect tb' ∧ Runs env s (collect n tb k) s' (.more tb' (k + n))
  | 0, tb, k, s => by
    rw [Blocks, collect]
    constructor
    · rintro ⟨rfl, rfl⟩
      exact ⟨tb, rfl, .ret⟩
    · rintro ⟨tb', rfl, h⟩
      obtain ⟨rfl, hc⟩ := runs_ret.mp h
      cases hc
      exact ⟨rfl, rfl⟩
  | n + 1, tb, k, s => by
    have hk : k + (n + 1) = k + 1 + n := by omega
    rw [Blocks, collect, hk]
    simp only [runs_bind]
    constructor
    · rintro ⟨s₁, _, hr, hb⟩
      obtain ⟨token, value, tb₁, rfl, hstep⟩ := goes_on.mp hr
      obtain ⟨tb', rfl, hc⟩ := (blocks_collect n).mp hb
      exact ⟨tb', rfl, s₁, _, hstep, hc⟩
    · rintro ⟨tb', rfl, s₁, y, hstep, hc⟩
      cases y with
      | pair token value tb₁ =>
        exact ⟨s₁, _, goes_on.mpr ⟨token, value, tb₁, rfl, hstep⟩, (blocks_collect n).mpr ⟨tb', rfl, hc⟩⟩
      | eof => cases (runs_ret.mp hc).2
      | failed => cases (runs_ret.mp hc).2

/-- The first `n` iterations, and the others. -/
theorem runs_collect_add : ∀ (n : Nat) {m : Nat} {tb tb' : Table} {k k' : Nat} {s s₁ : S} {x : Collect},
    Runs env s (collect n tb k) s₁ (.more tb' k') → Runs env s₁ (collect m tb' k') s' x →
      Runs env s (collect (n + m) tb k) s' x
  | 0, m, tb, tb', k, k', s, s₁, x, h, h' => by
    obtain ⟨rfl, hx⟩ := runs_ret.mp h
    cases hx
    rwa [Nat.zero_add]
  | n + 1, m, tb, tb', k, k', s, s₁, x, h, h' => by
    obtain ⟨s₂, y, hstep, hc⟩ := runs_bind.mp h
    rw [Nat.add_right_comm]
    cases y with
    | pair token value tb₂ => exact runs_bind.mpr ⟨s₂, _, hstep, runs_collect_add n hc h'⟩
    | eof => cases (runs_ret.mp hc).2
    | failed => cases (runs_ret.mp hc).2

/-- **What the process has collected** when it comes to the end of the stream of `msgs`, cut as it may be: the table of
exactly these pairs. -/
theorem reducer_grouped {args : PoolArgs} {msgs : List Msg} {n : Nat} {tb : Table} {s s' : Bytes}
    (hb : Blocks (threadEnv StreamEnv) (reducerCode args).body n (msgs.flatMap Msg.wire) (.collect .empty) s (.collect tb))
    (he : Runs StreamEnv s (collectStep tb) s' .eof) : Grouped tb (msgs.map Msg.pair) := by
  obtain ⟨_, hph, hc⟩ := (blocks_collect (k := 0) n).mp hb
  cases hph
  have hlast : Runs StreamEnv s (collect (msgs.length + 1) tb (0 + n)) s' (.collected tb (0 + n)) :=
    runs_bind.mpr ⟨s', _, he, .ret⟩
  have hall := (collect_spec msgs _ .empty [] (by omega) tableInv_empty).run (runs_collect_add n hc hlast)
  rcases hall with ⟨tb', htb, hinv⟩ | ⟨htb, -⟩
  · obtain ⟨rfl, -⟩ := Collect.collected.inj htb
    exact hinv.grouped
  · cases htb

end MrLib
