import Mathlib.Algebra.BigOperators.Group.Finset.Basic
import Mathlib.Data.Multiset.AddSub
import Mathlib.Data.Multiset.UnionInter
import Mathlib.Tactic.Abel
import MrLib.Lib.WorkPool

/-!
# Where the items of a pool are

The ledger of a pool (`Ledger`): every item that was ever on the stack is on it, with a worker, lost, or its job has been
run (`work`), and every item whose job has been run is with a worker or released (`use`). Read when all workers are out,
it says that every item was served (`Ledger.served`) or released (`Ledger.freed`); read at any time, that nobody has an
item twice (`Ledger.unique`). `wedged` says how a push can come to wait for ever.
-/

namespace Conc.WorkPool

variable {ω : Type}

/-! ## The items -/

/-- The item a worker has taken and not yet run its job on. -/
def Wk.waiting : Wk ω → List ω
  | .took x | .has x => [x]
  | _ => []

/-- The item a worker has run its job on and not yet released. -/
def Wk.inUse : Wk ω → List ω
  | .using x | .erred x => [x]
  | _ => []

/-- The item whose job has not failed so far. -/
def Wk.running : Wk ω → List ω
  | .using x => [x]
  | _ => []

/-- 1 for a worker whose job has failed. -/
def Wk.failures : Wk ω → Nat
  | .erred _ | .doomed => 1
  | _ => 0

@[simp] theorem waiting_took (x : ω) : (Wk.took x).waiting = [x] := rfl
@[simp] theorem waiting_has (x : ω) : (Wk.has x).waiting = [x] := rfl
@[simp] theorem inUse_using (x : ω) : (Wk.using x).inUse = [x] := rfl
@[simp] theorem inUse_erred (x : ω) : (Wk.erred x).inUse = [x] := rfl
@[simp] theorem running_using (x : ω) : (Wk.using x).running = [x] := rfl

/-- The items of the workers, each counted as `f` says. -/
def tally {M : Type} [AddCommMonoid M] (n : Nat) (f : Wk ω → M) (wk : Nat → Wk ω) : M := ∑ i ∈ Finset.range n, f (wk i)

section

variable {M : Type} [AddCommMonoid M] {n i : Nat} {f : Wk ω → M} {wk : Nat → Wk ω}

theorem tally_update (hi : i < n) (w : Wk ω) :
    tally n f (Function.update wk i w) + f (wk i) = tally n f wk + f w := by
  have hm : i ∈ Finset.range n := Finset.mem_range.mpr hi
  have hrest : ∀ v : Nat → Wk ω, ∑ j ∈ Finset.range n, f (v j) = f (v i) + ∑ j ∈ (Finset.range n).erase i, f (v j) :=
    fun v => (Finset.add_sum_erase _ (fun j => f (v j)) hm).symm
  have hsame : ∑ j ∈ (Finset.range n).erase i, f (Function.update wk i w j) = ∑ j ∈ (Finset.range n).erase i, f (wk j) :=
    Finset.sum_congr rfl fun j hj => by rw [Function.update_of_ne (Finset.ne_of_mem_erase hj)]
  rw [tally, tally, hrest, hrest wk, hsame, Function.update_self]
  abel

/-- An item comes. -/
theorem tally_gain (hi : i < n) {w v : Wk ω} (hw : wk i = v) (h0 : f v = 0) :
    tally n f (Function.update wk i w) = tally n f wk + f w := by
  rw [← tally_update hi w, hw, h0, add_zero]

/-- An item goes. -/
theorem tally_loss (hi : i < n) {w v : Wk ω} (hw : wk i = v) (h0 : f w = 0) :
    tally n f wk = tally n f (Function.update wk i w) + f v := by
  rw [← hw, tally_update hi w, h0, add_zero]

/-- Nothing changes. -/
theorem tally_same {w v : Wk ω} (hw : wk i = v) (h0 : f w = f v) :
    tally n f (Function.update wk i w) = tally n f wk := by
  refine Finset.sum_congr rfl fun j _ => ?_
  by_cases hj : j = i
  · subst hj
    rw [Function.update_self, hw, h0]
  · rw [Function.update_of_ne hj]

theorem tally_eq_zero (h : ∀ i < n, f (wk i) = 0) : tally n f wk = 0 :=
  Finset.sum_eq_zero fun i hi => h i (Finset.mem_range.mp hi)

end

/-- **The ledger of the items.** -/
structure Ledger (P : Spec) (g : State ω) : Prop where
  feed : (g.ctl.born : Multiset ω) + g.burnt = g.puts + g.ctl.held + g.ctl.dropped
  order : g.ctl.refused = false → g.ctl.dropped = [] → g.ctl.born = g.puts ++ g.ctl.held
  work : (g.puts : Multiset ω) = g.stack + tally P.workers (fun w => (w.waiting : Multiset ω)) g.wk + g.lost + g.called
  use : (g.called : Multiset ω) + g.ctl.dropped = tally P.workers (fun w => (w.inUse : Multiset ω)) g.wk + g.released
  /-- With one worker and room for one item, items are served in the order in which they were put. -/
  fifo : P.workers = 1 → P.capacity = 1 → g.lost = [] → g.puts = g.called ++ (g.wk 0).waiting ++ g.stack

/-- **The ledger of what went wrong.** -/
structure Faults (P : Spec) (g : State ω) : Prop where
  failed : (g.failed : Multiset ω) + tally P.workers (fun w => (w.running : Multiset ω)) g.wk ≤ g.called
  stopped : P.stops = true → g.failed.length = tally P.workers Wk.failures g.wk
  lost : g.lost ≠ [] → ∃ i, g.wk i = .broken
  burnt : g.ctl.refused = false → g.burnt = []

theorem Ledger.start (P : Spec) : Ledger P (State.start : State ω) where
  feed := rfl
  order _ _ := rfl
  work := by simp [State.start, tally, Wk.waiting]
  use := by simp [State.start, Ctl.start, tally, Wk.inUse]
  fifo _ _ _ := rfl

theorem Faults.start (P : Spec) : Faults P (State.start : State ω) where
  failed := by simp [State.start, tally, Wk.running]
  stopped _ := by simp [State.start, tally, Wk.failures]
  lost h := absurd rfl h
  burnt _ := rfl

section

variable {P : Spec} {g g' : State ω} {f : Fault}

/-- A worker moves on and keeps its item. -/
theorem Ledger.move (h : Ledger P g) {i : Nat} {v w : Wk ω} (hi : i < P.workers) (hv : g.wk i = v)
    (hwait : w.waiting = v.waiting) (huse : w.inUse = v.inUse) : Ledger P (g.move i w) where
  feed := h.feed
  order := h.order
  work := by
    simp only [State.move]
    rw [tally_same hv (by rw [hwait])]
    exact h.work
  use := by
    simp only [State.move]
    rw [tally_same hv (by rw [huse])]
    exact h.use
  fifo h1 h2 h3 := by
    have h0 : i = 0 := by omega
    subst h0
    have hk := h.fifo h1 h2 h3
    rw [hv, ← hwait] at hk
    simpa [State.move] using hk

/-- A worker releases the item it has run its job on. -/
theorem Ledger.release (h : Ledger P g) {i : Nat} {x : ω} {v w : Wk ω} (hi : i < P.workers) (hv : g.wk i = v)
    (hx : v.inUse = [x]) (hwait : w.waiting = v.waiting) (huse : w.inUse = []) :
    Ledger P { g.move i w with released := g.released ++ [x] } where
  feed := h.feed
  order := h.order
  work := by
    simp only [State.move]
    rw [tally_same hv (by rw [hwait])]
    exact h.work
  use := by
    simp only [State.move]
    rw [h.use, tally_loss hi hv (w := w) (by rw [huse]; rfl), hx]
    simp only [← Multiset.coe_add]
    abel
  fifo h1 h2 h3 := by
    have h0 : i = 0 := by omega
    subst h0
    have hk := h.fifo h1 h2 h3
    rw [hv, ← hwait] at hk
    simpa [State.move] using hk

theorem Ledger.step (h : Ledger P g) (hI : Inv P g) (hs : Step P g f g') : Ledger P g' := by
  cases hs with
  | create ho hs hn =>
    have hw : g.wk g.ctl.created = .absent := (hI.absent _).mpr (le_refl _)
    have hm := h.move (w := .idle) hn hw rfl rfl
    exact ⟨hm.1, hm.2, hm.3, hm.4, hm.5⟩
  | createFail | push | pushOk | shut | close | join | joinFail => exact ⟨h.1, h.2, h.3, h.4, h.5⟩
  | come xs ho =>
    refine ⟨?_, fun hr hd => ?_, h.3, h.4, h.5⟩
    · have hf := h.feed
      simp only [← Multiset.coe_add]
      rw [add_right_comm, hf]
      abel
    · simp only [h.order hr hd, List.append_assoc]
  | put x rest ho hh hc =>
    refine ⟨?_, fun hr hd => ?_, ?_, h.4, fun h1 h2 h3 => ?_⟩
    · have hf := h.feed
      rw [hh, ← Multiset.cons_coe, ← Multiset.singleton_add] at hf
      simp only [← Multiset.coe_add, Multiset.coe_singleton]
      rw [hf]
      abel
    · have hb := h.order hr hd
      rw [hh] at hb
      simpa using hb
    · have hw := h.work
      simp only [← Multiset.coe_add]
      rw [hw]
      abel
    · have hk := h.fifo h1 h2 h3
      simp only [hk, List.append_assoc]
  | refuse x ho => exact ⟨h.1, nofun, h.3, h.4, h.5⟩
  | burn x ho =>
    refine ⟨?_, nofun, h.3, h.4, h.5⟩
    have hf := h.feed
    simp only [← Multiset.coe_add, ← Multiset.cons_coe, ← Multiset.singleton_add]
    rw [← add_assoc, hf]
    abel
  | drop x rest ho hh =>
    refine ⟨?_, fun _ hd => absurd hd (by simp), h.3, ?_, h.5⟩
    · have hf := h.feed
      rw [hh, ← Multiset.cons_coe, ← Multiset.singleton_add] at hf
      simp only [← Multiset.coe_add, Multiset.coe_singleton]
      rw [hf]
      abel
    · have hu := h.use
      simp only [← Multiset.coe_add]
      rw [← add_assoc, hu]
      abel
  | take i x l hw hs =>
    have hi : i < P.workers := hI.lt (by rw [hw]; nofun)
    refine ⟨h.1, h.2, ?_, ?_, fun h1 h2 h3 => ?_⟩
    · simp only [State.move]
      rw [tally_gain hi hw (by rfl), h.work, hs]
      simp only [← Multiset.coe_add, waiting_took]
      abel
    · simp only [State.move]
      rw [tally_same hw (by rfl)]
      exact h.use
    · have h0 : i = 0 := by omega
      subst h0
      -- there was one item, and it has been taken
      have hl : l = [] := by
        have hle := hI.stack_le
        rw [hs, h2, List.length_append, List.length_singleton] at hle
        exact List.length_eq_zero_iff.mp (by omega)
      have hk := h.fifo h1 h2 h3
      rw [hw, hs, hl] at hk
      simpa [State.move, hl, Wk.waiting] using hk
  | got i x hw => exact h.move (hI.lt (by rw [hw]; nofun)) hw rfl rfl
  | lose i x hw =>
    have hi : i < P.workers := hI.lt (by rw [hw]; nofun)
    refine ⟨h.1, h.2, ?_, ?_, fun _ _ hl => absurd hl (by simp)⟩
    · simp only [State.move]
      rw [h.work, tally_loss hi hw (w := .broken) (by rfl)]
      simp only [← Multiset.coe_add, waiting_took]
      abel
    · simp only [State.move]
      rw [tally_same hw (by rfl)]
      exact h.use
  | find i hw hc hs | drain i hw | crash i hw => exact h.move (hI.lt (by rw [hw]; nofun)) hw rfl rfl
  | call i x hw =>
    have hi : i < P.workers := hI.lt (by rw [hw]; nofun)
    refine ⟨h.1, h.2, ?_, ?_, fun h1 h2 h3 => ?_⟩
    · simp only [State.move]
      rw [h.work, tally_loss hi hw (w := .using x) (by rfl)]
      simp only [← Multiset.coe_add, waiting_has]
      abel
    · simp only [State.move]
      rw [tally_gain hi hw (by rfl)]
      simp only [← Multiset.coe_add, inUse_using]
      rw [add_right_comm, h.use]
      abel
    · have h0 : i = 0 := by omega
      subst h0
      have hk := h.fifo h1 h2 h3
      rw [hw] at hk
      simpa [State.move, Wk.waiting] using hk
  | fail i x hw =>
    have hm := h.move (w := .erred x) (hI.lt (by rw [hw]; nofun)) hw rfl rfl
    exact ⟨hm.1, hm.2, hm.3, hm.4, hm.5⟩
  | release i x hw => exact h.release (hI.lt (by rw [hw]; nofun)) hw rfl rfl rfl
  | releaseFailed i x hw =>
    have ha : (P.after : Wk ω).waiting = [] ∧ (P.after : Wk ω).inUse = [] := by
      rcases after_cases (ω := ω) P with hP | hP <;> rw [hP] <;> exact ⟨rfl, rfl⟩
    exact h.release (hI.lt (by rw [hw]; nofun)) hw rfl ha.1 ha.2

/-- A worker that is out stays there. -/
theorem Faults.lost_move (h : Faults P g) {i : Nat} {v w : Wk ω} (hv : g.wk i = v) (hb : v ≠ .broken)
    (hl : g.lost ≠ []) : ∃ j, (g.move i w).wk j = .broken := by
  obtain ⟨j, hj⟩ := h.lost hl
  refine ⟨j, ?_⟩
  rw [move_of_ne]
  · exact hj
  · rintro rfl
    exact hb (hv.symm.trans hj)

/-- A worker moves on, and its job neither starts nor ends in this step. -/
theorem Faults.move (h : Faults P g) {i : Nat} {v w : Wk ω} (hv : g.wk i = v) (hb : v ≠ .broken)
    (hrun : w.running = v.running) (hfail : w.failures = v.failures) : Faults P (g.move i w) where
  failed := by
    simp only [State.move]
    rw [tally_same hv (by rw [hrun])]
    exact h.failed
  stopped hp := by
    simp only [State.move]
    rw [tally_same hv hfail]
    exact h.stopped hp
  lost := h.lost_move hv hb
  burnt := h.burnt

theorem Faults.step (h : Faults P g) (hI : Inv P g) (hs : Step P g f g') : Faults P g' := by
  cases hs with
  | create ho hs hn =>
    have hw : g.wk g.ctl.created = .absent := (hI.absent _).mpr (le_refl _)
    have hm := h.move (w := .idle) hw nofun rfl rfl
    exact ⟨hm.1, hm.2, hm.3, hm.4⟩
  | createFail | come | push | put | pushOk | drop | shut | close | join | joinFail => exact ⟨h.1, h.2, h.3, h.4⟩
  | refuse x ho | burn x ho => exact ⟨h.1, h.2, h.3, nofun⟩
  | take i x l hw hs =>
    have hm := h.move (w := .took x) hw nofun rfl rfl
    exact ⟨hm.1, hm.2, hm.3, hm.4⟩
  | got i x hw => exact h.move hw nofun rfl rfl
  | lose i x hw =>
    have hm := h.move (w := .broken) hw nofun rfl rfl
    exact ⟨hm.1, hm.2, fun _ => ⟨i, move_self g i _⟩, hm.4⟩
  | find i hw _ _ | drain i hw | crash i hw => exact h.move hw nofun rfl rfl
  | call i x hw =>
    have hi : i < P.workers := hI.lt (by rw [hw]; nofun)
    refine ⟨?_, fun hp => ?_, h.lost_move hw nofun, h.4⟩
    · simp only [State.move]
      rw [tally_gain hi hw (by rfl), ← add_assoc, ← Multiset.coe_add]
      exact add_le_add_left h.failed _
    · simp only [State.move]
      rw [tally_same hw (by rfl)]
      exact h.stopped hp
  | fail i x hw =>
    have hi : i < P.workers := hI.lt (by rw [hw]; nofun)
    refine ⟨?_, fun hp => ?_, h.lost_move hw nofun, h.4⟩
    · have hf := h.failed
      rw [tally_loss hi hw (w := .erred x) (by rfl)] at hf
      refine le_of_eq_of_le ?_ hf
      simp only [State.move, ← Multiset.coe_add, running_using]
      abel
    · simp only [State.move]
      rw [tally_gain hi hw (by rfl), List.length_append, h.stopped hp]
      rfl
  | release i x hw =>
    have hi : i < P.workers := hI.lt (by rw [hw]; nofun)
    refine ⟨?_, fun hp => ?_, h.lost_move hw nofun, h.4⟩
    · have hf := h.failed
      rw [tally_loss hi hw (w := .idle) (by rfl), ← add_assoc] at hf
      exact (Multiset.le_add_right _ _).trans hf
    · simp only [State.move]
      rw [tally_same hw (by rfl)]
      exact h.stopped hp
  | releaseFailed i x hw =>
    refine ⟨?_, fun hp => ?_, h.lost_move hw nofun, h.4⟩
    · have hr : (P.after : Wk ω).running = [] := by
        rcases after_cases (ω := ω) P with hP | hP <;> rw [hP] <;> rfl
      simp only [State.move]
      rw [tally_same hw (by rw [hr]; rfl)]
      exact h.failed
    · simp only [State.move]
      rw [tally_same hw (by simp [Spec.after, hp, Wk.failures])]
      exact h.stopped hp

/-! ## What the ledgers say -/

theorem mem_tally {n i : Nat} {wk : Nat → Wk ω} {f : Wk ω → List ω} {x : ω} (hi : i < n) (hx : x ∈ f (wk i)) :
    x ∈ tally n (fun w => (f w : Multiset ω)) wk :=
  Multiset.mem_sum.mpr ⟨i, Finset.mem_range.mpr hi, hx⟩

theorem out_cases {w : Wk ω} (h : w.out = true) : w = .doomed ∨ w = .drained ∨ w = .broken := by
  cases w with
  | doomed => exact .inl rfl
  | drained => exact .inr (.inl rfl)
  | broken => exact .inr (.inr rfl)
  | _ => cases h

/-- A worker that is out has no item. -/
theorem out_items {w : Wk ω} (h : w.out = true) : w.waiting = [] ∧ w.inUse = [] := by
  rcases out_cases h with rfl | rfl | rfl <;> exact ⟨rfl, rfl⟩

/-- When no worker has an item, what was put is on the stack, lost, or its job was run. -/
theorem Ledger.work_of_empty (h : Ledger P g) (hw : ∀ i < P.workers, (g.wk i).waiting = []) :
    (g.puts : Multiset ω) = g.stack + g.lost + g.called := by
  have h0 : tally P.workers (fun w => (w.waiting : Multiset ω)) g.wk = 0 :=
    tally_eq_zero fun i hi => by rw [hw i hi]; rfl
  rw [h.work, h0, add_zero]

theorem Ledger.work_of_out (h : Ledger P g) (hout : ∀ i < P.workers, (g.wk i).out = true) :
    (g.puts : Multiset ω) = g.stack + g.lost + g.called := h.work_of_empty fun i hi => (out_items (hout i hi)).1

theorem Ledger.use_of_empty (h : Ledger P g) (hw : ∀ i < P.workers, (g.wk i).inUse = []) :
    (g.called : Multiset ω) + g.ctl.dropped = g.released := by
  have h0 : tally P.workers (fun w => (w.inUse : Multiset ω)) g.wk = 0 :=
    tally_eq_zero fun i hi => by rw [hw i hi]; rfl
  rw [h.use, h0, zero_add]

/-- **Every item is served**, exactly once, when the workers are out, nothing is left or lost, and no push has failed. -/
theorem Ledger.served (h : Ledger P g) (hout : ∀ i < P.workers, (g.wk i).out = true) (hr : g.ctl.refused = false)
    (hd : g.ctl.dropped = []) (hh : g.ctl.held = []) (hs : g.stack = []) (hl : g.lost = []) :
    g.called.Perm g.ctl.born := by
  have hw := h.work_of_out hout
  rw [hs, hl] at hw
  rw [h.order hr hd, hh, List.append_nil]
  exact Multiset.coe_eq_coe.mp (by simpa using hw.symm)

/-- **What was not served is on the stack**, when the workers are out, nothing is lost, and no push has failed. -/
theorem Ledger.remains (h : Ledger P g) (hout : ∀ i < P.workers, (g.wk i).out = true) (hr : g.ctl.refused = false)
    (hd : g.ctl.dropped = []) (hh : g.ctl.held = []) (hl : g.lost = []) : (g.called ++ g.stack).Perm g.ctl.born := by
  have hw := h.work_of_out hout
  rw [hl] at hw
  rw [h.order hr hd, hh, List.append_nil]
  refine Multiset.coe_eq_coe.mp ?_
  rw [hw, ← Multiset.coe_add, add_comm]
  simp

/-- Items are served in the order in which they came, by one worker, with room for one item. -/
theorem Ledger.served_in_order (h : Ledger P g) (hP : P.workers = 1) (hc : P.capacity = 1) (hout : (g.wk 0).out = true)
    (hr : g.ctl.refused = false) (hd : g.ctl.dropped = []) (hh : g.ctl.held = []) (hs : g.stack = []) (hl : g.lost = []) :
    g.called = g.ctl.born := by
  have hw : (g.wk 0).waiting = [] := by rcases out_cases hout with hw | hw | hw <;> rw [hw] <;> rfl
  have hfifo := h.fifo hP hc hl
  rw [hw, hs, List.append_nil, List.append_nil] at hfifo
  rw [h.order hr hd, hh, List.append_nil, hfifo]

/-- **Every item is released** when the workers there are have found the stack shut and empty, and the controller holds
nothing. -/
theorem Ledger.freed (h : Ledger P g) (hI : Inv P g) (hF : Faults P g) (hP : 0 < P.workers)
    (hall : ∀ i < g.ctl.created, g.wk i = .drained) (hb : g.burnt = []) (hh : g.ctl.held = []) :
    g.released.Perm g.ctl.born := by
  have idle : ∀ i, g.wk i = .absent ∨ g.wk i = .drained := fun i => by
    by_cases hi : i < g.ctl.created
    · exact .inr (hall i hi)
    · exact .inl ((hI.absent i).mpr (Nat.le_of_not_lt hi))
  have hwait : ∀ i, (g.wk i).waiting = [] := fun i => by rcases idle i with hw | hw <;> rw [hw] <;> rfl
  have huse : ∀ i, (g.wk i).inUse = [] := fun i => by rcases idle i with hw | hw <;> rw [hw] <;> rfl
  have hl : g.lost = [] := by
    by_contra hne
    obtain ⟨i, hi⟩ := hF.lost hne
    rcases idle i with hw | hw <;> rw [hw] at hi <;> cases hi
  have hw := h.work_of_empty fun i _ => hwait i
  have hs : g.stack = [] := by
    by_cases hc : 0 < g.ctl.created
    · exact (hI.drained 0 (.inr (hall 0 hc))).2
    · -- without workers nothing was put
      have hp : g.puts = [] := by
        by_contra hne
        have := hI.puts hne
        omega
      rw [hp] at hw
      have hle : (g.stack : Multiset ω) ≤ ([] : List ω) := by
        rw [hw]
        exact (Multiset.le_add_right _ _).trans (Multiset.le_add_right _ _)
      exact List.subperm_nil.mp (Multiset.coe_le.mp hle)
  have hf := h.feed
  rw [hs, hl] at hw
  rw [hb, hh, hw] at hf
  refine Multiset.coe_eq_coe.mp ?_
  rw [← h.use_of_empty fun i _ => huse i]
  simpa using hf.symm

/-- Every item that was born is in one place. -/
theorem Ledger.places (h : Ledger P g) (hb : g.burnt = []) :
    (g.ctl.born : Multiset ω) = (g.stack + tally P.workers (fun w => (w.waiting : Multiset ω)) g.wk + g.lost +
      g.ctl.held + tally P.workers (fun w => (w.inUse : Multiset ω)) g.wk) + g.released := by
  have hf := h.feed
  rw [hb, Multiset.coe_nil, add_zero, h.work] at hf
  rw [hf, add_assoc _ _ (g.released : Multiset ω), ← h.use]
  abel

/-- **Nobody has an item twice**: its job is run at most once, it is released at most once, and after that nobody has
it. -/
theorem Ledger.unique (h : Ledger P g) (hI : Inv P g) (hb : g.burnt = []) (hn : g.ctl.born.Nodup) :
    g.called.Nodup ∧ g.released.Nodup ∧ (∀ x ∈ g.ctl.held, x ∉ g.released) ∧
      ∀ i x, (g.wk i).Owns x → x ∉ g.released := by
  have hp := h.places hb
  have hnm : (g.ctl.born : Multiset ω).Nodup := Multiset.coe_nodup.mpr hn
  rw [hp, Multiset.nodup_add] at hnm
  obtain ⟨-, hrel, hdis⟩ := hnm
  have hdis' : ∀ x, x ∈ (g.stack + tally P.workers (fun w => (w.waiting : Multiset ω)) g.wk + g.lost + g.ctl.held +
      tally P.workers (fun w => (w.inUse : Multiset ω)) g.wk : Multiset ω) → x ∉ g.released := fun x hx hr =>
    Multiset.disjoint_left.mp hdis hx (Multiset.mem_coe.mpr hr)
  refine ⟨?_, Multiset.coe_nodup.mp hrel, fun x hx => hdis' x ?_, fun i x hx => hdis' x ?_⟩
  · have hf := h.feed
    rw [hb, Multiset.coe_nil, add_zero, h.work] at hf
    have hle : (g.called : Multiset ω) ≤ g.ctl.born := by
      rw [hf]
      exact (Multiset.le_add_left _ _).trans ((Multiset.le_add_right _ _).trans (Multiset.le_add_right _ _))
    exact Multiset.coe_nodup.mp (Multiset.nodup_of_le hle (Multiset.coe_nodup.mpr hn))
  · simp only [Multiset.mem_add, Multiset.mem_coe]
    exact .inl (.inr hx)
  · have hi : i < P.workers := hI.lt (by rcases hx with e | e | e <;> rw [e] <;> nofun)
    simp only [Multiset.mem_add]
    rcases hx with e | e | e
    · exact .inl (.inl (.inl (.inr (mem_tally hi (by rw [e]; simp)))))
    · exact .inr (mem_tally hi (by rw [e]; simp))
    · exact .inr (mem_tally hi (by rw [e]; simp))

/-- **How a push can wait for ever**: when it finds the stack full and every worker out, with nothing else having gone
wrong, then as many jobs as there are workers have failed, all on items put before the last one. -/
theorem wedged (hI : Inv P g) (h : Ledger P g) (hF : Faults P g) (hp : P.stops = true) (hc : 0 < P.capacity) {x : ω}
    (ho : g.ctl.op = .pushing x) (hfull : g.stack.length = P.capacity) (hout : ∀ i < P.workers, (g.wk i).out = true)
    (hb : ∀ i, g.wk i ≠ .broken) :
    P.workers + P.capacity ≤ g.puts.length ∧
      ∀ bad : ω → Bool, (∀ y ∈ g.failed, bad y = true) → P.workers ≤ g.puts.dropLast.countP bad := by
  have hl : g.lost = [] := by
    by_contra hne
    obtain ⟨i, hi⟩ := hF.lost hne
    exact hb i hi
  have hdoomed : ∀ i < P.workers, (g.wk i).failures = 1 := fun i hi => by
    have ho1 := hout i hi
    have hnd := hI.not_drained (by rw [ho]; nofun) i
    rcases out_cases ho1 with hw | hw | hw
    · rw [hw]
      rfl
    · exact absurd (.inr hw) hnd
    · exact absurd hw (hb i)
  have hfail : g.failed.length = P.workers := by
    rw [hF.stopped hp, tally, Finset.sum_congr rfl fun i hi => hdoomed i (Finset.mem_range.mp hi)]
    simp
  -- the last item put is on top of the stack
  obtain ⟨l, y, hs⟩ : ∃ l y, g.stack = l ++ [y] := by
    rcases List.eq_nil_or_concat g.stack with hs | ⟨l, y, hs⟩
    · rw [hs] at hfull
      exact absurd hfull.symm (by simpa using Nat.ne_of_gt hc)
    · exact ⟨l, y, by rw [hs, List.concat_eq_append]⟩
  obtain ⟨pre, hpre⟩ : ∃ pre, g.puts = pre ++ [y] := by
    have htop := hI.full hfull
    rw [hs, List.getLast?_concat] at htop
    exact ⟨_, (List.dropLast_append_getLast? y htop.symm).symm⟩
  have hw := h.work_of_out hout
  rw [hl, hs, hpre, ← Multiset.coe_add, ← Multiset.coe_add] at hw
  have hw' : (pre : Multiset ω) = l + g.called := by
    refine add_right_cancel (b := ([y] : Multiset ω)) ?_
    rw [show ((pre : Multiset ω) + ([y] : List ω)) = _ from hw, Multiset.coe_nil]
    abel
  have hle : (g.failed : Multiset ω) ≤ pre := by
    rw [hw']
    exact ((Multiset.le_add_right _ _).trans hF.failed).trans (Multiset.le_add_left _ _)
  constructor
  · have hcl := congrArg Multiset.card hw'
    have hcf := Multiset.card_le_card ((Multiset.le_add_right _ _).trans hF.failed)
    simp only [Multiset.coe_card, Multiset.card_add] at hcl hcf
    rw [hs, List.length_append, List.length_singleton] at hfull
    rw [hpre, List.length_append, List.length_singleton]
    omega
  · intro bad hbad
    rw [hpre, List.dropLast_concat]
    calc P.workers = g.failed.countP bad := by
          rw [List.countP_eq_length.mpr hbad, hfail]
      _ ≤ pre.countP bad := by
          have := Multiset.countP_le_of_le (fun z => bad z = true) hle
          simpa [Multiset.coe_countP] using this

/-- The same, of the items the controller came to hold, when no push has failed. -/
theorem wedged_born (hI : Inv P g) (h : Ledger P g) (hF : Faults P g) (hp : P.stops = true) (hc : 0 < P.capacity) {x : ω}
    {rest : List ω} (ho : g.ctl.op = .pushing x) (hh : g.ctl.held = x :: rest) (hr : g.ctl.refused = false)
    (hfull : g.stack.length = P.capacity) (hout : ∀ i < P.workers, (g.wk i).out = true)
    (hb : ∀ i, g.wk i ≠ .broken) :
    P.workers + P.capacity < g.ctl.born.length ∧
      ∀ bad : ω → Bool, (∀ y ∈ g.failed, bad y = true) → P.workers ≤ g.ctl.born.dropLast.dropLast.countP bad := by
  obtain ⟨hlen, hbad⟩ := wedged hI h hF hp hc ho hfull hout hb
  have hkeep := (hI.busy (by rw [ho]; nofun)).2.2
  have hborn : g.ctl.born = g.puts ++ x :: rest := hh ▸ h.order hr (hkeep hr)
  constructor
  · rw [hborn, List.length_append, List.length_cons]
    omega
  · intro bad hy
    have hsub : g.puts.dropLast.Sublist g.ctl.born.dropLast.dropLast := by
      rw [hborn, List.dropLast_append_of_ne_nil (List.cons_ne_nil x rest)]
      cases hd : (x :: rest).dropLast with
      | nil => rw [List.append_nil]
      | cons y l =>
        rw [List.dropLast_append_of_ne_nil (List.cons_ne_nil y l)]
        exact (List.dropLast_sublist _).trans (List.sublist_append_left _ _)
    exact (hbad bad hy).trans hsub.countP_le

/-- **Items are left only if every worker has stopped**, each when its job had failed, if no take went wrong and the
workers are out. -/
theorem stopped_of_left {fs : List Fault} (hs : Steps P .start fs g) (hfs : ∀ f ∈ fs, f ≠ .lost ∧ f ≠ .crashed) (hI : Inv P g)
    (hF : Faults P g) (hP : 0 < P.workers) (hout : ∀ i < P.workers, (g.wk i).out = true) (hne : g.stack ≠ []) :
    P.stops = true ∧ g.failed.length = P.workers := by
  have hdoomed : ∀ i < P.workers, g.wk i = .doomed := by
    intro i hi
    rcases out_cases (hout i hi) with hw | hw | hw
    · exact hw
    · exact absurd (hI.drained i (.inr hw)).2 hne
    · rcases hs.causes.broken i hw with h0 | h0 | h0
      · cases h0
      · exact absurd rfl (hfs _ h0).1
      · exact absurd rfl (hfs _ h0).2
  have hstops : P.stops = true := by
    by_contra hno
    exact hs.not_doomed (by simpa using hno) (fun j hj => by cases hj) 0 (hdoomed 0 hP)
  refine ⟨hstops, ?_⟩
  have hone : ∀ i < P.workers, (g.wk i).failures = 1 := fun i hi => by
    rw [hdoomed i hi]
    rfl
  rw [hF.stopped hstops, tally, Finset.sum_congr rfl fun i hi => hone i (Finset.mem_range.mp hi)]
  simp

end

end Conc.WorkPool
