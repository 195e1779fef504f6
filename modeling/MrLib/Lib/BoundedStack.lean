import Mathlib.Data.List.Perm.Basic
import Mathlib.Data.List.Nodup
import Mathlib.Data.List.Range
import Mathlib.Logic.Function.Basic
import MrLib.Lib.Lts

/-!
# An atomic bounded stack shared by threads

The specification of a bounded LIFO container that threads push to, pop from and close. A call is three steps of its
thread: the invocation, the one atomic step that takes effect, and the return; the history is the sequence of
invocations and returns, so that a concurrent implementation whose histories are histories of this system is
linearizable.

A push takes effect when there is room, a pop when there is an element, or, with the answer `drained`, when the stack
is closed and empty. Elements are tagged with the number of their push: `conserved` says that every push is popped at
most once and is otherwise still in the stack. When a close is called after all pushes (`Quiet`), a stack that a pop
has found drained stays empty (`drained_stays`).
-/

namespace Conc.BoundedStack

inductive Op (X : Type)
  | push (x : X)
  | pop
  | close
  deriving DecidableEq

inductive Res (X : Type)
  | pushed
  | popped (x : X)
  /-- The stack is closed and empty. -/
  | drained
  | closed

inductive Phase (X : Type)
  | idle
  | pending (o : Op X)
  | done (o : Op X) (r : Res X)

inductive Event (T X : Type)
  | call (t : T) (o : Op X)
  | ret (t : T) (o : Op X) (r : Res X)

structure St (T X : Type) where
  stack : List (Nat × X)
  closed : Bool
  pushed : List (Nat × X)
  popped : List (Nat × X)
  phase : T → Phase X
  history : List (Event T X)

inductive Act (T X : Type)
  | call (t : T) (o : Op X)
  | effect (t : T)
  | ret (t : T)

variable {T X : Type} [DecidableEq T]

def St.setPhase (u : St T X) (t : T) (p : Phase X) : St T X := { u with phase := Function.update u.phase t p }

def effect (cap : Nat) (u : St T X) (t : T) : Op X → Option (St T X)
  | .push x =>
    if u.stack.length < cap then
      some { u.setPhase t (.done (.push x) .pushed) with
        stack := u.stack ++ [(u.pushed.length, x)]
        pushed := u.pushed ++ [(u.pushed.length, x)] }
    else none
  | .pop =>
    match u.stack.getLast? with
    | some x =>
      some { u.setPhase t (.done .pop (.popped x.2)) with
        stack := u.stack.dropLast
        popped := u.popped ++ [x] }
    | none => if u.closed then some (u.setPhase t (.done .pop .drained)) else none
  | .close => some { u.setPhase t (.done .close .closed) with closed := true }

def step (cap : Nat) (u : St T X) : Act T X → Option (St T X)
  | .call t o =>
    match u.phase t with
    | .idle => some { u.setPhase t (.pending o) with history := u.history ++ [.call t o] }
    | _ => none
  | .effect t =>
    match u.phase t with
    | .pending o => effect cap u t o
    | _ => none
  | .ret t =>
    match u.phase t with
    | .done o r => some { u.setPhase t .idle with history := u.history ++ [.ret t o r] }
    | _ => none

def init : St T X where
  stack := []
  closed := false
  pushed := []
  popped := []
  phase _ := .idle
  history := []

/-- The atomic bounded stack of capacity `cap`. -/
def system (T X : Type) [DecidableEq T] (cap : Nat) : Lts (St T X) (Act T X) := ⟨init, step cap⟩

/-! ## Conservation -/

/-- Every push is popped once or still in the stack, and the stack is within its capacity. -/
structure Conserved (cap : Nat) (u : St T X) : Prop where
  perm : (u.popped ++ u.stack).Perm u.pushed
  tags : u.pushed.map Prod.fst = List.range u.pushed.length
  le : u.stack.length ≤ cap

/-- A step of one thread between the effects of its calls. -/
inductive Step (cap : Nat) (u : St T X) : Act T X → St T X → Prop
  | call (t : T) (o : Op X) (hp : u.phase t = .idle) :
      Step cap u (.call t o) { u.setPhase t (.pending o) with history := u.history ++ [.call t o] }
  | push (t : T) (x : X) (hp : u.phase t = .pending (.push x)) (hl : u.stack.length < cap) :
      Step cap u (.effect t) { u.setPhase t (.done (.push x) .pushed) with
        stack := u.stack ++ [(u.pushed.length, x)]
        pushed := u.pushed ++ [(u.pushed.length, x)] }
  | pop (t : T) (x : Nat × X) (us : List (Nat × X)) (hp : u.phase t = .pending .pop) (hs : u.stack = us ++ [x]) :
      Step cap u (.effect t) { u.setPhase t (.done .pop (.popped x.2)) with
        stack := us
        popped := u.popped ++ [x] }
  | drained (t : T) (hp : u.phase t = .pending .pop) (hs : u.stack = []) (hc : u.closed = true) :
      Step cap u (.effect t) (u.setPhase t (.done .pop .drained))
  | close (t : T) (hp : u.phase t = .pending .close) :
      Step cap u (.effect t) { u.setPhase t (.done .close .closed) with closed := true }
  | ret (t : T) (o : Op X) (r : Res X) (hp : u.phase t = .done o r) :
      Step cap u (.ret t) { u.setPhase t .idle with history := u.history ++ [.ret t o r] }

theorem Step.run {cap : Nat} {u u' : St T X} {a : Act T X} (h : Step cap u a u') : step cap u a = some u' := by
  cases h with
  | call t o hp => simp [step, hp]
  | push t x hp hl => simp [step, hp, effect, hl]
  | pop t x us hp hs => simp [step, hp, effect, hs]
  | drained t hp hs hc => simp [step, hp, effect, hs, hc]
  | close t hp => simp [step, hp, effect]
  | ret t o r hp => simp [step, hp]

theorem step_cases {cap : Nat} {u u' : St T X} {a : Act T X} (h : step cap u a = some u') : Step cap u a u' := by
  cases a with
  | call t o =>
    cases hp : u.phase t <;> simp only [step, hp, reduceCtorEq, Option.some.injEq] at h
    subst h
    exact .call t o hp
  | effect t =>
    cases hp : u.phase t with
    | pending o =>
      simp only [step, hp] at h
      cases o with
      | push x =>
        simp only [effect, Option.ite_none_right_eq_some, Option.some.injEq] at h
        obtain ⟨hl, rfl⟩ := h
        exact .push t x hp hl
      | pop =>
        simp only [effect] at h
        split at h
        · rename_i x hx
          cases h
          have := List.dropLast_append_getLast? x hx
          exact .pop t x _ hp this.symm
        · rename_i hx
          simp only [Option.ite_none_right_eq_some, Option.some.injEq] at h
          obtain ⟨hc, rfl⟩ := h
          exact .drained t hp (List.getLast?_eq_none_iff.mp hx) hc
      | close =>
        cases h
        exact .close t hp
    | _ => simp [step, hp] at h
  | ret t =>
    cases hp : u.phase t <;> simp only [step, hp, reduceCtorEq, Option.some.injEq] at h
    subst h
    exact .ret t _ _ hp

/-- **Every push is popped at most once and is otherwise still in the stack.** -/
theorem conserved {cap : Nat} {P : St T X → Act T X → Prop} {u : St T X} (h : Reach (system T X cap) P u) :
    Conserved cap u := by
  refine h.inv ⟨.refl _, rfl, Nat.zero_le _⟩ fun u a u' hu _ he => ?_
  cases step_cases he with
  | call t o hp => exact ⟨hu.perm, hu.tags, hu.le⟩
  | push t x hp hl =>
    refine ⟨?_, ?_, ?_⟩
    · show (u.popped ++ (u.stack ++ [_])).Perm (u.pushed ++ [_])
      rw [← List.append_assoc]
      exact hu.perm.append_right _
    · simp [hu.tags, List.range_succ]
    · simpa [Nat.succ_le_iff] using hl
  | pop t x us hp hs =>
    refine ⟨?_, hu.tags, ?_⟩
    · have h1 := hu.perm
      rw [hs] at h1
      show (u.popped ++ [x] ++ us).Perm u.pushed
      refine List.Perm.trans ?_ h1
      rw [List.append_assoc]
      exact List.Perm.append_left _ List.perm_append_comm
    · have h1 := hu.le
      rw [hs, List.length_append, List.length_singleton] at h1
      exact (Nat.le_succ _).trans h1
  | drained t hp hs hc => exact ⟨hu.perm, hu.tags, hu.le⟩
  | close t hp => exact ⟨hu.perm, hu.tags, hu.le⟩
  | ret t o r hp => exact ⟨hu.perm, hu.tags, hu.le⟩

omit [DecidableEq T] in
theorem Conserved.nodup {cap : Nat} {u : St T X} (h : Conserved cap u) : (u.popped ++ u.stack).Nodup := by
  have h1 : (u.pushed.map Prod.fst).Nodup := by
    rw [h.tags]
    exact List.nodup_range
  exact h.perm.nodup_iff.mpr h1.of_map

/-! ## Closing after all pushes -/

def Phase.pushing : Phase X → Bool
  | .pending (.push _) | .done (.push _) _ => true
  | _ => false

/-- A close is called when no push is under way, a push when no close was called. -/
def Quiet (u : St T X) : Act T X → Prop
  | .call _ .close => ∀ t, (u.phase t).pushing = false
  | .call _ (.push _) => ∀ t, Event.call t .close ∉ u.history
  | _ => True

structure Settled (u : St T X) : Prop where
  quiet : ∀ t, Event.call t .close ∈ u.history → ∀ v, (u.phase v).pushing = false
  called : ∀ v, u.phase v = .pending .close → ∃ t, Event.call t .close ∈ u.history
  closed : u.closed = true → ∃ t, Event.call t .close ∈ u.history
  phase : ∀ v o, u.phase v = .done o .drained → u.closed = true ∧ u.stack = []
  ret : ∀ v o, Event.ret v o .drained ∈ u.history → u.closed = true ∧ u.stack = []

theorem setPhase_phase (u : St T X) (t v : T) (p : Phase X) :
    (u.setPhase t p).phase v = if v = t then p else u.phase v := Function.update_apply _ _ _ _

theorem settled_step {cap : Nat} {u u' : St T X} {a : Act T X} (h : Settled u) (hq : Quiet u a) (hs : Step cap u a u') :
    Settled u' := by
  cases hs with
  | call t o hp =>
    have hcall : ∀ v, Event.call v .close ∈ u.history ++ [.call t o] ↔
        Event.call v .close ∈ u.history ∨ v = t ∧ o = .close := fun v => by
      simp only [List.mem_append, List.mem_singleton, Event.call.injEq, eq_comm]
    refine ⟨fun v hv w => ?_, fun v hv => ?_, fun hc => ?_, fun v o' hv => ?_, fun v o' hv => ?_⟩
    · have hw : (u.phase w).pushing = false := by
        rcases (hcall v).mp hv with hv | ⟨-, rfl⟩
        · exact h.quiet v hv w
        · exact hq w
      simp only [setPhase_phase]
      split
      · cases o with
        | push x =>
          rcases (hcall v).mp hv with hv | ⟨-, he⟩
          · exact absurd hv (hq v)
          · cases he
        | _ => rfl
      · exact hw
    · simp only [setPhase_phase] at hv
      split at hv
      · cases hv
        exact ⟨t, (hcall t).mpr (.inr ⟨rfl, rfl⟩)⟩
      · obtain ⟨w, hw⟩ := h.called v hv
        exact ⟨w, (hcall w).mpr (.inl hw)⟩
    · obtain ⟨w, hw⟩ := h.closed hc
      exact ⟨w, (hcall w).mpr (.inl hw)⟩
    · simp only [setPhase_phase] at hv
      split at hv
      · cases hv
      · exact h.phase v o' hv
    · exact h.ret v o' (by simpa using hv)
  | push t x hp hl =>
    -- a push under way means that no close was called
    have hno : ∀ v, Event.call v .close ∉ u.history := fun v hv => by simpa [hp, Phase.pushing] using h.quiet v hv t
    have hopen : u.closed ≠ true := fun hc => by
      obtain ⟨v, hv⟩ := h.closed hc
      exact hno v hv
    refine ⟨fun v hv => absurd hv (hno v), fun v hv => ?_, fun hc => absurd hc hopen, fun v o hv => ?_, fun v o hv => ?_⟩
    · simp only [setPhase_phase] at hv
      split at hv
      · cases hv
      · exact h.called v hv
    · simp only [setPhase_phase] at hv
      split at hv
      · cases hv
      · exact absurd (h.phase v o hv).1 hopen
    · exact absurd (h.ret v o hv).1 hopen
  | pop t x us hp hs =>
    have hne : u.stack ≠ [] := by simp [hs]
    refine ⟨fun v hv w => ?_, fun v hv => ?_, h.closed, fun v o hv => ?_, fun v o hv => ?_⟩
    · simp only [setPhase_phase]
      split
      · rfl
      · exact h.quiet v hv w
    · simp only [setPhase_phase] at hv
      split at hv
      · cases hv
      · exact h.called v hv
    · simp only [setPhase_phase] at hv
      split at hv
      · cases hv
      · exact absurd (h.phase v o hv).2 hne
    · exact absurd (h.ret v o hv).2 hne
  | drained t hp hs hc =>
    refine ⟨fun v hv w => ?_, fun v hv => ?_, h.closed, fun v o hv => ?_, h.ret⟩
    · simp only [setPhase_phase]
      split
      · rfl
      · exact h.quiet v hv w
    · simp only [setPhase_phase] at hv
      split at hv
      · cases hv
      · exact h.called v hv
    · exact ⟨hc, hs⟩
  | close t hp =>
    refine ⟨fun v hv w => ?_, fun v hv => ?_, fun _ => h.called t hp, fun v o hv => ?_, fun v o hv => ?_⟩
    · simp only [setPhase_phase]
      split
      · rfl
      · exact h.quiet v hv w
    · simp only [setPhase_phase] at hv
      split at hv
      · cases hv
      · exact h.called v hv
    · simp only [setPhase_phase] at hv
      split at hv
      · cases hv
      · exact ⟨rfl, (h.phase v o hv).2⟩
    · exact ⟨rfl, (h.ret v o hv).2⟩
  | ret t o r hp =>
    have hcall : ∀ v, Event.call v .close ∈ u.history ++ [.ret t o r] ↔ Event.call v .close ∈ u.history := by simp
    refine ⟨fun v hv w => ?_, fun v hv => ?_, fun hc => ?_, fun v o hv => ?_, fun v o' hv => ?_⟩
    · simp only [setPhase_phase]
      split
      · rfl
      · exact h.quiet v ((hcall v).mp hv) w
    · simp only [setPhase_phase] at hv
      split at hv
      · cases hv
      · obtain ⟨w, hw⟩ := h.called v hv
        exact ⟨w, (hcall w).mpr hw⟩
    · obtain ⟨w, hw⟩ := h.closed hc
      exact ⟨w, (hcall w).mpr hw⟩
    · simp only [setPhase_phase] at hv
      split at hv
      · cases hv
      · exact h.phase v o hv
    · rcases List.mem_append.mp hv with hv | hv
      · exact h.ret v o' hv
      · simp only [List.mem_singleton, Event.ret.injEq] at hv
        obtain ⟨-, rfl, rfl⟩ := hv
        exact h.phase t o' hp

/-- **A stack that a pop has found drained stays empty.** -/
theorem drained_stays {cap : Nat} {u : St T X} (h : Reach (system T X cap) Quiet u) : Settled u := by
  refine h.inv ⟨?_, ?_, ?_, ?_, ?_⟩ fun u a u' hu hq he => settled_step hu hq (step_cases he)
  all_goals simp [system, init]

end Conc.BoundedStack
