import Mathlib.Data.List.Basic
import Mathlib.Logic.Function.Basic

/-!
# A controller that feeds workers through a bounded stack

An abstract pool. The controller creates the workers, comes to hold items, pushes them on a bounded stack in the order
in which it holds them, or drops them, shuts the stack and joins the workers. A worker takes an item from the stack,
runs its job on it, and releases it; it is out when it has found the stack shut and empty, when its job has failed
(if `Spec.stops`), or when something else went wrong. Every operation may fail (`Fault`), and a push may fail after
its item is on the stack (`burnt`), a take after its item is off it (`lost`).

`Inv` is the invariant of the control.
-/

namespace Conc.WorkPool

/-- The parameters of a pool. -/
structure Spec where
  workers : Nat
  capacity : Nat
  /-- A worker whose job has failed stops. -/
  stops : Bool

/-- The push under way. -/
inductive Op (ω : Type)
  | none
  | pushing (x : ω)
  /-- The item is on the stack. -/
  | pushed (x : ω)

/-- The controller. -/
structure Ctl (ω : Type) where
  /-- The workers `0, ..., created - 1` have been created. -/
  created : Nat
  /-- It has begun to close the stack. -/
  shut : Bool
  joined : List Nat
  /-- The items it has and may push or drop, in that order. -/
  held : List ω
  op : Op ω
  /-- The items it ever came to hold. -/
  born : List ω
  dropped : List ω
  /-- A push has failed. -/
  refused : Bool
  createFailed : Bool
  joinFailed : Bool

/-- A worker. -/
inductive Wk (ω : Type)
  | absent
  | idle
  /-- `x` is off the stack, and the take is not over. -/
  | took (x : ω)
  /-- The stack was found shut and empty, and the take is not over. -/
  | found
  | has (x : ω)
  /-- The job is running on `x`, or has run. -/
  | using (x : ω)
  /-- The job has failed on `x`. -/
  | erred (x : ω)
  -- the worker is out
  | doomed
  | drained
  | broken

/-- What went wrong in a step. -/
inductive Fault
  | none
  | refused
  | burnt
  | lost
  | crashed
  | createFailed
  | joinFailed
  deriving DecidableEq

structure State (ω : Type) where
  ctl : Ctl ω
  wk : Nat → Wk ω
  stack : List ω
  closed : Bool
  /-- The items that were put on the stack. -/
  puts : List ω
  /-- The items whose job was run. -/
  called : List ω
  failed : List ω
  released : List ω
  lost : List ω
  burnt : List ω

variable {ω : Type}

def Ctl.start : Ctl ω := ⟨0, false, [], [], .none, [], [], false, false, false⟩

def State.start : State ω := ⟨.start, fun _ => .absent, [], false, [], [], [], [], [], []⟩

/-- The worker will do nothing more. -/
def Wk.out : Wk ω → Bool
  | .doomed | .drained | .broken => true
  | _ => false

/-- The worker exists and is not out. -/
def Wk.live : Wk ω → Bool
  | .absent | .doomed | .drained | .broken => false
  | _ => true

/-- The worker exists, and does not know the stack to be shut and empty. -/
def Wk.plain : Wk ω → Bool
  | .absent | .found | .drained => false
  | _ => true

/-- Whether the worker owns `x`. -/
def Wk.Owns (w : Wk ω) (x : ω) : Prop := w = .has x ∨ w = .using x ∨ w = .erred x

/-- The controller has dropped nothing, unless a push has failed. -/
def Ctl.Keeping (c : Ctl ω) : Prop := c.refused = false → c.dropped = []

/-- What worker `i` becomes. -/
def State.move (g : State ω) (i : Nat) (w : Wk ω) : State ω := { g with wk := Function.update g.wk i w }

/-- After its job, a worker takes the next item, or stops. -/
def Spec.after (P : Spec) : Wk ω := if P.stops then .doomed else .idle

/-- The steps. -/
inductive Step (P : Spec) (g : State ω) : Fault → State ω → Prop
  -- the controller
  | create (ho : g.ctl.op = .none) (hs : g.ctl.shut = false) (hn : g.ctl.created < P.workers) :
      Step P g .none
        { g.move g.ctl.created .idle with ctl := { g.ctl with created := g.ctl.created + 1 } }
  | createFail : Step P g .createFailed { g with ctl := { g.ctl with createFailed := true } }
  | come (xs : List ω) (ho : g.ctl.op = .none) :
      Step P g .none { g with ctl := { g.ctl with held := g.ctl.held ++ xs, born := g.ctl.born ++ xs } }
  | push (x : ω) (rest : List ω) (ho : g.ctl.op = .none) (hs : g.ctl.shut = false)
      (hn : g.ctl.created = P.workers) (hk : g.ctl.Keeping) (hh : g.ctl.held = x :: rest) :
      Step P g .none { g with ctl := { g.ctl with op := .pushing x } }
  | put (x : ω) (rest : List ω) (ho : g.ctl.op = .pushing x) (hh : g.ctl.held = x :: rest)
      (hc : g.stack.length < P.capacity) :
      Step P g .none
        { g with
          ctl := { g.ctl with op := .pushed x, held := rest }
          stack := g.stack ++ [x]
          puts := g.puts ++ [x] }
  | pushOk (x : ω) (ho : g.ctl.op = .pushed x) : Step P g .none { g with ctl := { g.ctl with op := .none } }
  | refuse (x : ω) (ho : g.ctl.op = .pushing x) :
      Step P g .refused { g with ctl := { g.ctl with op := .none, refused := true } }
  | burn (x : ω) (ho : g.ctl.op = .pushed x) :
      Step P g .burnt
        { g with
          ctl := { g.ctl with op := .none, refused := true, held := x :: g.ctl.held }
          burnt := g.burnt ++ [x] }
  | drop (x : ω) (rest : List ω) (ho : g.ctl.op = .none) (hh : g.ctl.held = x :: rest) :
      Step P g .none
        { g with
          ctl := { g.ctl with held := rest, dropped := g.ctl.dropped ++ [x] }
          released := g.released ++ [x] }
  | shut (ho : g.ctl.op = .none) : Step P g .none { g with ctl := { g.ctl with shut := true } }
  | close (hs : g.ctl.shut = true) : Step P g .none { g with closed := true }
  | join (i : Nat) (hw : (g.wk i).out = true) :
      Step P g .none { g with ctl := { g.ctl with joined := i :: g.ctl.joined } }
  | joinFail : Step P g .joinFailed { g with ctl := { g.ctl with joinFailed := true } }
  -- a worker
  | take (i : Nat) (x : ω) (l : List ω) (hw : g.wk i = .idle) (hs : g.stack = l ++ [x]) :
      Step P g .none { g.move i (.took x) with stack := l }
  | got (i : Nat) (x : ω) (hw : g.wk i = .took x) : Step P g .none (g.move i (.has x))
  | lose (i : Nat) (x : ω) (hw : g.wk i = .took x) :
      Step P g .lost { g.move i .broken with lost := g.lost ++ [x] }
  | find (i : Nat) (hw : g.wk i = .idle) (hc : g.closed = true) (hs : g.stack = []) :
      Step P g .none (g.move i .found)
  | drain (i : Nat) (hw : g.wk i = .found) : Step P g .none (g.move i .drained)
  | crash (i : Nat) (hw : g.wk i = .idle) : Step P g .crashed (g.move i .broken)
  | call (i : Nat) (x : ω) (hw : g.wk i = .has x) :
      Step P g .none { g.move i (.using x) with called := g.called ++ [x] }
  | fail (i : Nat) (x : ω) (hw : g.wk i = .using x) :
      Step P g .none { g.move i (.erred x) with failed := g.failed ++ [x] }
  | release (i : Nat) (x : ω) (hw : g.wk i = .using x) :
      Step P g .none { g.move i .idle with released := g.released ++ [x] }
  | releaseFailed (i : Nat) (x : ω) (hw : g.wk i = .erred x) :
      Step P g .none { g.move i P.after with released := g.released ++ [x] }

/-- Several steps, and what went wrong in them. -/
inductive Steps (P : Spec) : State ω → List Fault → State ω → Prop
  | nil {g : State ω} : Steps P g [] g
  | cons {g g' g'' : State ω} {f : Fault} {fs : List Fault} (h : Step P g f g') (hs : Steps P g' fs g'') :
      Steps P g (f :: fs) g''

/-! ## The control -/

/-- **The invariant of the control.** -/
structure Inv (P : Spec) (g : State ω) : Prop where
  created_le : g.ctl.created ≤ P.workers
  absent : ∀ i, g.wk i = .absent ↔ g.ctl.created ≤ i
  closed : g.closed = true → g.ctl.shut = true
  busy : g.ctl.op ≠ .none → g.ctl.shut = false ∧ g.ctl.created = P.workers ∧ g.ctl.Keeping
  joined : ∀ i ∈ g.ctl.joined, (g.wk i).out = true
  drained : ∀ i, g.wk i = .found ∨ g.wk i = .drained → g.closed = true ∧ g.stack = []
  puts : g.puts ≠ [] → g.ctl.created = P.workers
  stack_le : g.stack.length ≤ P.capacity
  /-- Nobody has taken anything since a full stack was filled. -/
  full : g.stack.length = P.capacity → g.stack.getLast? = g.puts.getLast?

theorem Inv.start (P : Spec) : Inv P (State.start : State ω) where
  created_le := Nat.zero_le _
  absent i := iff_of_true rfl (Nat.zero_le i)
  closed h := by cases h
  busy h := absurd rfl h
  joined i h := by cases h
  drained i h := by rcases h with h | h <;> cases h
  puts h := absurd rfl h
  stack_le := Nat.zero_le _
  full _ := rfl

section

variable {P : Spec} {g g' : State ω} {f : Fault}

@[simp] theorem move_self (g : State ω) (i : Nat) (w : Wk ω) : (g.move i w).wk i = w := Function.update_self ..

theorem move_of_ne (g : State ω) {i j : Nat} (w : Wk ω) (h : j ≠ i) : (g.move i w).wk j = g.wk j :=
  Function.update_of_ne h ..

theorem after_cases (P : Spec) : (P.after : Wk ω) = .doomed ∨ (P.after : Wk ω) = .idle := by
  unfold Spec.after
  split
  · exact .inl rfl
  · exact .inr rfl

/-- A live worker moves on. -/
theorem Inv.move (h : Inv P g) {i : Nat} {w : Wk ω} (hw : (g.wk i).live = true) (hw' : w ≠ .absent)
    (hd : w = .found ∨ w = .drained → g.closed = true ∧ g.stack = []) : Inv P (g.move i w) where
  created_le := h.created_le
  absent j := by
    by_cases hj : j = i
    · subst hj
      rw [move_self]
      refine iff_of_false hw' fun hc => ?_
      rw [(h.absent j).mpr hc] at hw
      cases hw
    · rw [move_of_ne g w hj]
      exact h.absent j
  closed := h.closed
  busy := h.busy
  joined j hj := by
    have hne : j ≠ i := by
      rintro rfl
      have := h.joined j hj
      cases hg : g.wk j <;> rw [hg] at this hw <;> cases this <;> cases hw
    rw [move_of_ne g w hne]
    exact h.joined j hj
  drained j hj := by
    by_cases hji : j = i
    · subst hji
      rw [move_self] at hj
      exact hd hj
    · rw [move_of_ne g w hji] at hj
      exact h.drained j hj
  puts := h.puts
  stack_le := h.stack_le
  full := h.full

/-- It moves on to something that says nothing about the stack. -/
theorem Inv.move_plain (h : Inv P g) {i : Nat} {w v : Wk ω} (hw : g.wk i = v) (hv : v.live = true)
    (hp : w.plain = true) : Inv P (g.move i w) := by
  refine h.move (by rw [hw]; exact hv) (fun e => ?_) fun e => ?_
  · rw [e] at hp
    cases hp
  · rcases e with e | e <;> rw [e] at hp <;> cases hp

theorem after_plain (P : Spec) : (P.after : Wk ω).plain = true := by
  rcases after_cases (ω := ω) P with hP | hP <;> rw [hP] <;> rfl

/-- A worker exists. -/
theorem Inv.lt (h : Inv P g) {i : Nat} (hw : g.wk i ≠ .absent) : i < P.workers := by
  have : ¬ g.ctl.created ≤ i := fun hc => hw ((h.absent i).mpr hc)
  have := h.created_le
  omega

/-- A stack that was found shut and empty stays so: nobody pushes any more. -/
theorem Inv.not_drained (h : Inv P g) (ho : g.ctl.op ≠ .none) (i : Nat) : ¬ (g.wk i = .found ∨ g.wk i = .drained) := by
  intro hi
  have := h.closed (h.drained i hi).1
  rw [(h.busy ho).1] at this
  cases this

theorem Inv.step (h : Inv P g) (hs : Step P g f g') : Inv P g' := by
  cases hs with
  | create ho hs hn =>
    refine ⟨hn, fun i => ?_, h.closed, fun hc => absurd ho hc, fun i hi => ?_, fun i hi => ?_, fun hp => ?_, h.stack_le,
      h.full⟩
    · show (g.move g.ctl.created .idle).wk i = .absent ↔ g.ctl.created + 1 ≤ i
      by_cases hi : i = g.ctl.created
      · subst hi
        rw [move_self]
        exact iff_of_false nofun (by omega)
      · rw [move_of_ne g _ hi, h.absent i]
        omega
    · have hne : i ≠ g.ctl.created := by
        rintro rfl
        have := h.joined _ hi
        rw [(h.absent _).mpr (Nat.le_refl _)] at this
        cases this
      show ((g.move g.ctl.created .idle).wk i).out = true
      rw [move_of_ne g _ hne]
      exact h.joined i hi
    · have hi : (g.move g.ctl.created .idle).wk i = .found ∨ (g.move g.ctl.created .idle).wk i = .drained := hi
      by_cases hne : i = g.ctl.created
      · subst hne
        rw [move_self] at hi
        rcases hi with hi | hi <;> cases hi
      · rw [move_of_ne g _ hne] at hi
        exact h.drained i hi
    · have := h.puts hp
      omega
  | createFail | come xs ho | joinFail => exact ⟨h.1, h.2, h.3, h.4, h.5, h.6, h.7, h.8, h.9⟩
  | push x rest ho hs hn hk hh => exact ⟨h.1, h.2, h.3, fun _ => ⟨hs, hn, hk⟩, h.5, h.6, h.7, h.8, h.9⟩
  | put x rest ho hh hc =>
    have hne : g.ctl.op ≠ .none := by rw [ho]; nofun
    refine ⟨h.1, h.2, h.3, fun _ => h.busy hne, h.5, fun i hi => absurd hi (h.not_drained hne i), fun _ => (h.busy hne).2.1,
      ?_, fun _ => ?_⟩
    · simpa [Nat.succ_le_iff] using hc
    · simp
  | pushOk x ho | refuse x ho | burn x ho =>
    exact ⟨h.1, h.2, h.3, fun hc => absurd rfl hc, h.5, h.6, h.7, h.8, h.9⟩
  | drop x rest ho hh => exact ⟨h.1, h.2, h.3, fun hc => absurd ho hc, h.5, h.6, h.7, h.8, h.9⟩
  | shut ho => exact ⟨h.1, h.2, fun _ => rfl, fun hc => absurd ho hc, h.5, h.6, h.7, h.8, h.9⟩
  | close hs => exact ⟨h.1, h.2, fun _ => hs, h.4, h.5, fun i hi => ⟨rfl, (h.6 i hi).2⟩, h.7, h.8, h.9⟩
  | join i hw =>
    refine ⟨h.1, h.2, h.3, h.4, fun j hj => ?_, h.6, h.7, h.8, h.9⟩
    rcases List.mem_cons.mp hj with rfl | hj
    · exact hw
    · exact h.joined j hj
  | take i x l hw hs =>
    have hm := h.move_plain (w := .took x) hw rfl rfl
    have hlen : g.stack.length = l.length + 1 := by rw [hs]; simp
    have hle := h.stack_le
    refine ⟨hm.1, hm.2, hm.3, hm.4, hm.5, fun j hj => ?_, hm.7, ?_, fun hfull => ?_⟩
    · have hd := (hm.drained j hj).2
      rw [show (g.move i (.took x)).stack = g.stack from rfl, hs] at hd
      exact absurd hd (by simp)
    · show l.length ≤ P.capacity
      omega
    · have hfull : l.length = P.capacity := hfull
      omega
  | got i x hw => exact h.move_plain hw rfl rfl
  | lose i x hw =>
    have hm := h.move_plain (w := .broken) hw rfl rfl
    exact ⟨hm.1, hm.2, hm.3, hm.4, hm.5, hm.6, hm.7, hm.8, hm.9⟩
  | find i hw hc hs => exact h.move (by rw [hw]; rfl) nofun fun _ => ⟨hc, hs⟩
  | drain i hw => exact h.move (by rw [hw]; rfl) nofun fun _ => h.drained i (.inl hw)
  | crash i hw => exact h.move_plain hw rfl rfl
  | call i x hw =>
    have hm := h.move_plain (w := .using x) hw rfl rfl
    exact ⟨hm.1, hm.2, hm.3, hm.4, hm.5, hm.6, hm.7, hm.8, hm.9⟩
  | fail i x hw =>
    have hm := h.move_plain (w := .erred x) hw rfl rfl
    exact ⟨hm.1, hm.2, hm.3, hm.4, hm.5, hm.6, hm.7, hm.8, hm.9⟩
  | release i x hw =>
    have hm := h.move_plain (w := .idle) hw rfl rfl
    exact ⟨hm.1, hm.2, hm.3, hm.4, hm.5, hm.6, hm.7, hm.8, hm.9⟩
  | releaseFailed i x hw =>
    have hm := h.move_plain (w := P.after) hw rfl (after_plain P)
    exact ⟨hm.1, hm.2, hm.3, hm.4, hm.5, hm.6, hm.7, hm.8, hm.9⟩

end

/-! ## Who is to blame -/

/-- What has gone wrong shows which faults occurred. -/
structure Causes (g : State ω) (fs : List Fault) (g' : State ω) : Prop where
  refused : g'.ctl.refused = true → g.ctl.refused = true ∨ .refused ∈ fs ∨ .burnt ∈ fs
  burnt : g'.burnt ≠ [] → g.burnt ≠ [] ∨ .burnt ∈ fs
  lost : g'.lost ≠ [] → g.lost ≠ [] ∨ .lost ∈ fs
  broken : ∀ i, g'.wk i = .broken → g.wk i = .broken ∨ .lost ∈ fs ∨ .crashed ∈ fs
  createFailed : g'.ctl.createFailed = true → g.ctl.createFailed = true ∨ .createFailed ∈ fs
  joinFailed : g'.ctl.joinFailed = true → g.ctl.joinFailed = true ∨ .joinFailed ∈ fs

section

variable {P : Spec} {g g' : State ω} {f : Fault} {fs : List Fault}

theorem broken_move {i j : Nat} {w : Wk ω} (hw : w ≠ .broken) (h : (g.move i w).wk j = .broken) : g.wk j = .broken := by
  by_cases hj : j = i
  · subst hj
    rw [move_self] at h
    exact absurd h hw
  · rwa [move_of_ne g w hj] at h

theorem Step.causes (hs : Step P g f g') : Causes g [f] g' := by
  cases hs with
  | create _ _ _ =>
    exact ⟨.inl, .inl, .inl, fun i h => .inl (broken_move (i := g.ctl.created) (w := .idle) nofun h), .inl, .inl⟩
  | createFail => exact ⟨.inl, .inl, .inl, fun _ => .inl, fun _ => .inr (by simp), .inl⟩
  | refuse x _ => exact ⟨fun _ => .inr (by simp), .inl, .inl, fun _ => .inl, .inl, .inl⟩
  | burn x _ => exact ⟨fun _ => .inr (by simp), fun _ => .inr (by simp), .inl, fun _ => .inl, .inl, .inl⟩
  | joinFail => exact ⟨.inl, .inl, .inl, fun _ => .inl, .inl, fun _ => .inr (by simp)⟩
  | lose i x _ => exact ⟨.inl, .inl, fun _ => .inr (by simp), fun _ _ => .inr (by simp), .inl, .inl⟩
  | crash i _ => exact ⟨.inl, .inl, .inl, fun _ _ => .inr (by simp), .inl, .inl⟩
  | take i x _ _ _ => exact ⟨.inl, .inl, .inl, fun j h => .inl (broken_move (i := i) (w := .took x) nofun h), .inl, .inl⟩
  | got i x _ => exact ⟨.inl, .inl, .inl, fun j h => .inl (broken_move (i := i) (w := .has x) nofun h), .inl, .inl⟩
  | find i _ _ _ => exact ⟨.inl, .inl, .inl, fun j h => .inl (broken_move (i := i) (w := .found) nofun h), .inl, .inl⟩
  | drain i _ => exact ⟨.inl, .inl, .inl, fun j h => .inl (broken_move (i := i) (w := .drained) nofun h), .inl, .inl⟩
  | call i x _ => exact ⟨.inl, .inl, .inl, fun j h => .inl (broken_move (i := i) (w := .using x) nofun h), .inl, .inl⟩
  | fail i x _ => exact ⟨.inl, .inl, .inl, fun j h => .inl (broken_move (i := i) (w := .erred x) nofun h), .inl, .inl⟩
  | release i x _ => exact ⟨.inl, .inl, .inl, fun j h => .inl (broken_move (i := i) (w := .idle) nofun h), .inl, .inl⟩
  | releaseFailed i x _ =>
    have hP : (P.after : Wk ω) ≠ .broken := by rcases after_cases (ω := ω) P with hP | hP <;> rw [hP] <;> nofun
    exact ⟨.inl, .inl, .inl, fun j h => .inl (broken_move (i := i) (w := P.after) hP h), .inl, .inl⟩
  | _ => exact ⟨.inl, .inl, .inl, fun _ => .inl, .inl, .inl⟩

theorem Steps.causes (hs : Steps P g fs g') : Causes g fs g' := by
  induction hs with
  | nil => exact ⟨.inl, .inl, .inl, fun _ => .inl, .inl, .inl⟩
  | @cons g g1 g' f fs h _ ih =>
    have h1 := h.causes
    have go : ∀ {f' : Fault}, f' ∈ [f] → f' ∈ f :: fs := fun hm => by simp only [List.mem_singleton] at hm; simp [hm]
    refine ⟨fun hr => ?_, fun hr => ?_, fun hr => ?_, fun i hr => ?_, fun hr => ?_, fun hr => ?_⟩
    · rcases ih.refused hr with hr | hr | hr
      · exact (h1.refused hr).imp_right fun hm => hm.imp go go
      · exact .inr (.inl (List.mem_cons_of_mem _ hr))
      · exact .inr (.inr (List.mem_cons_of_mem _ hr))
    · rcases ih.burnt hr with hr | hr
      · exact (h1.burnt hr).imp_right go
      · exact .inr (List.mem_cons_of_mem _ hr)
    · rcases ih.lost hr with hr | hr
      · exact (h1.lost hr).imp_right go
      · exact .inr (List.mem_cons_of_mem _ hr)
    · rcases ih.broken i hr with hr | hr | hr
      · exact (h1.broken i hr).imp_right fun hm => hm.imp go go
      · exact .inr (.inl (List.mem_cons_of_mem _ hr))
      · exact .inr (.inr (List.mem_cons_of_mem _ hr))
    · rcases ih.createFailed hr with hr | hr
      · exact (h1.createFailed hr).imp_right go
      · exact .inr (List.mem_cons_of_mem _ hr)
    · rcases ih.joinFailed hr with hr | hr
      · exact (h1.joinFailed hr).imp_right go
      · exact .inr (List.mem_cons_of_mem _ hr)

/-- A pool whose workers go on has none that has stopped. -/
theorem Step.not_doomed (hs : Step P g f g') (hP : P.stops = false) (h : ∀ i, g.wk i ≠ .doomed) (i : Nat) :
    g'.wk i ≠ .doomed := by
  have move : ∀ (j : Nat) (w : Wk ω), w ≠ .doomed → (g.move j w).wk i ≠ .doomed := fun j w hw => by
    by_cases hi : i = j
    · subst hi
      rw [move_self]
      exact hw
    · rw [move_of_ne g w hi]
      exact h i
  cases hs with
  | create _ _ _ => exact move _ _ (by simp)
  | take j x l _ _ => exact move _ _ (by simp)
  | got j x _ => exact move _ _ (by simp)
  | lose j x _ => exact move _ _ (by simp)
  | find j _ _ _ => exact move _ _ (by simp)
  | drain j _ => exact move _ _ (by simp)
  | crash j _ => exact move _ _ (by simp)
  | call j x _ => exact move _ _ (by simp)
  | fail j x _ => exact move _ _ (by simp)
  | release j x _ => exact move _ _ (by simp)
  | releaseFailed j x _ => exact move _ _ (by simp [Spec.after, hP])
  | _ => exact h i

theorem Steps.not_doomed (hs : Steps P g fs g') (hP : P.stops = false) (h : ∀ i, g.wk i ≠ .doomed) :
    ∀ i, g'.wk i ≠ .doomed := by
  induction hs with
  | nil => exact h
  | cons hs _ ih => exact ih (hs.not_doomed hP h)

end

end Conc.WorkPool
