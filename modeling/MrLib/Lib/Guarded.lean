import MrLib.Lib.Threads

/-!
# Critical sections

A program keeps its code under a mutex `m` bracketed (`Guarded P m inside`) when the locations `inside` the section are
entered by a successful `mtxLock m`, left by a successful `mtxUnlock m` and by nothing else, and when a thread that
waits on a condition variable is inside the section of the mutex it passes.

Then, as long as no call on a mutex or a condition variable fails (`Code.syncOk`), the owner of `m` is the one thread
that is inside and does not wait (`Mutual`, `Guarded.mutual`).

When nobody waits inside and a failing call does not lead into the section (`Enclosed`), a thread that is inside owns
`m` whatever fails (`Owned`, `Enclosed.owned`); but then an owner need not be inside.
-/

namespace Conc

variable {T M C E V X L : Type}

/-- Only a call that leaves the process may fail. -/
def Code.syncOk (P : Code T M C E V X L) (s : State T M C X L) : Act T V → Bool
  | .ret t .fail =>
    match P.call (s.loc t) with
    | .ext _ => true
    | _ => false
  | _ => true

theorem Code.syncOk_of_ok (P : Code T M C E V X L) (s : State T M C X L) {a : Act T V} (h : a.ok = true) :
    P.syncOk s a = true := by
  unfold syncOk
  split
  · simp [Act.ok] at h
  · rfl

theorem Code.ext_of_syncOk {P : Code T M C E V X L} {s : State T M C X L} {t : T}
    (h : P.syncOk s (.ret t (.fail : Ret V)) = true) : ∃ e, P.call (s.loc t) = .ext e := by
  simp only [syncOk] at h
  split at h
  · exact ⟨_, by assumption⟩
  · cases h

structure Guarded (P : Code T M C E V X L) (m : M) (inside : L → Prop) : Prop where
  lock : ∀ {l}, P.call l = .mtxLock m → ¬ inside l
  unlock : ∀ {l}, P.call l = .mtxUnlock m → inside l
  wait : ∀ {l c m'}, P.call l = .cndWait c m' → (inside l ↔ m' = m)
  absent : ∀ {l}, P.call l = .absent → ¬ inside l
  locked : ∀ {l} t x, P.call l = .mtxLock m → inside (P.next t l .ok x).1
  unlocked : ∀ {l} t x, P.call l = .mtxUnlock m → ¬ inside (P.next t l .ok x).1
  keep : ∀ {l} t r x, P.call l ≠ .mtxLock m → P.call l ≠ .mtxUnlock m → (r = .fail → ∃ e, P.call l = .ext e) →
    (inside (P.next t l r x).1 ↔ inside l)
  entry : ∀ t, ¬ inside (P.entry t)

/-- A section in which nobody waits, and which only a successful `mtxLock m` leads into. -/
structure Enclosed (P : Code T M C E V X L) (m : M) (inside : L → Prop) : Prop extends Guarded P m inside where
  noWait : ∀ l c, P.call l ≠ .cndWait c m
  enter : ∀ {l} t r x, inside (P.next t l r x).1 → inside l ∨ (P.call l = .mtxLock m ∧ r = .ok)

/-- `t` waits on no condition variable. -/
def State.Awake (s : State T M C X L) (t : T) : Prop := ∀ c, t ∉ s.asleep c ∧ t ∉ s.woken c

/-- A waiting thread is at the call that waits, on one condition variable, and is asleep or woken but not both. -/
structure Waits (P : Code T M C E V X L) (s : State T M C X L) : Prop where
  call : ∀ c t, t ∈ s.asleep c ∨ t ∈ s.woken c → ∃ m, P.call (s.loc t) = .cndWait c m
  apart : ∀ c t, t ∈ s.asleep c → t ∉ s.woken c

/-- The owner of `m` is the thread inside. -/
def Mutual (m : M) (inside : L → Prop) (s : State T M C X L) : Prop :=
  ∀ t, s.owner m = some t ↔ inside (s.loc t) ∧ s.Awake t

/-- A thread inside owns `m`. -/
def Owned (m : M) (inside : L → Prop) (s : State T M C X L) : Prop := ∀ t, inside (s.loc t) → s.owner m = some t

section Advance

variable [DecidableEq T] {P : Code T M C E V X L} {s : State T M C X L} {t u : T} {r : Ret V}

@[simp] theorem advance_owner : (P.advance s t r).owner = s.owner := rfl
@[simp] theorem advance_asleep : (P.advance s t r).asleep = s.asleep := rfl
@[simp] theorem advance_woken : (P.advance s t r).woken = s.woken := rfl
@[simp] theorem advance_mem : (P.advance s t r).mem = (P.next t (s.loc t) r s.mem).2 := rfl

@[simp] theorem advance_loc_self : (P.advance s t r).loc t = (P.next t (s.loc t) r s.mem).1 := by
  simp [Code.advance]

theorem advance_loc_of_ne (h : u ≠ t) : (P.advance s t r).loc u = s.loc u := by simp [Code.advance, h]

end Advance

section Owner

variable [DecidableEq M] {s : State T M C X L}

@[simp] theorem setOwner_loc (m : M) (o : Option T) : (s.setOwner m o).loc = s.loc := rfl
@[simp] theorem setOwner_asleep (m : M) (o : Option T) : (s.setOwner m o).asleep = s.asleep := rfl
@[simp] theorem setOwner_woken (m : M) (o : Option T) : (s.setOwner m o).woken = s.woken := rfl
@[simp] theorem setOwner_mem (m : M) (o : Option T) : (s.setOwner m o).mem = s.mem := rfl
@[simp] theorem setOwner_owner_self (m : M) (o : Option T) : (s.setOwner m o).owner m = o := by simp [State.setOwner]

theorem setOwner_owner_of_ne {m m' : M} (o : Option T) (h : m' ≠ m) : (s.setOwner m o).owner m' = s.owner m' := by
  simp [State.setOwner, h]

end Owner

section Waiting

variable [DecidableEq C] {s : State T M C X L}

@[simp] theorem setAsleep_loc (c : C) (ts : Finset T) : (s.setAsleep c ts).loc = s.loc := rfl
@[simp] theorem setAsleep_owner (c : C) (ts : Finset T) : (s.setAsleep c ts).owner = s.owner := rfl
@[simp] theorem setAsleep_woken (c : C) (ts : Finset T) : (s.setAsleep c ts).woken = s.woken := rfl
@[simp] theorem setAsleep_mem (c : C) (ts : Finset T) : (s.setAsleep c ts).mem = s.mem := rfl
@[simp] theorem setAsleep_self (c : C) (ts : Finset T) : (s.setAsleep c ts).asleep c = ts := by simp [State.setAsleep]

theorem setAsleep_of_ne {c c' : C} (ts : Finset T) (h : c' ≠ c) : (s.setAsleep c ts).asleep c' = s.asleep c' := by
  simp [State.setAsleep, h]

@[simp] theorem setWoken_loc (c : C) (ts : Finset T) : (s.setWoken c ts).loc = s.loc := rfl
@[simp] theorem setWoken_owner (c : C) (ts : Finset T) : (s.setWoken c ts).owner = s.owner := rfl
@[simp] theorem setWoken_asleep (c : C) (ts : Finset T) : (s.setWoken c ts).asleep = s.asleep := rfl
@[simp] theorem setWoken_mem (c : C) (ts : Finset T) : (s.setWoken c ts).mem = s.mem := rfl
@[simp] theorem setWoken_self (c : C) (ts : Finset T) : (s.setWoken c ts).woken c = ts := by simp [State.setWoken]

theorem setWoken_of_ne {c c' : C} (ts : Finset T) (h : c' ≠ c) : (s.setWoken c ts).woken c' = s.woken c' := by
  simp [State.setWoken, h]

variable [DecidableEq T] {t u : T}

@[simp] theorem rouse_loc (c : C) (u : T) : (s.rouse c u).loc = s.loc := rfl
@[simp] theorem rouse_owner (c : C) (u : T) : (s.rouse c u).owner = s.owner := rfl
@[simp] theorem rouse_mem (c : C) (u : T) : (s.rouse c u).mem = s.mem := rfl

theorem mem_rouse_asleep {c c' : C} : t ∈ (s.rouse c u).asleep c' ↔ t ∈ s.asleep c' ∧ (c' = c → t ≠ u) := by
  by_cases h : c' = c
  · subst h
    simp [State.rouse, and_comm]
  · simp [State.rouse, setAsleep_of_ne _ h, h]

theorem mem_rouse_woken {c c' : C} : t ∈ (s.rouse c u).woken c' ↔ t ∈ s.woken c' ∨ (c' = c ∧ t = u) := by
  by_cases h : c' = c
  · subst h
    simp [State.rouse, or_comm]
  · simp [State.rouse, setWoken_of_ne _ h, h]

/-- Waking a sleeper makes nobody awake. -/
theorem awake_rouse {c : C} (hu : u ∈ s.asleep c) : (s.rouse c u).Awake t ↔ s.Awake t := by
  constructor
  · intro h c'
    obtain ⟨h1, h2⟩ := h c'
    rw [mem_rouse_asleep] at h1
    rw [mem_rouse_woken] at h2
    refine ⟨fun ha => ?_, fun hw => h2 (.inl hw)⟩
    by_cases hc : c' = c ∧ t = u
    · exact h2 (.inr hc)
    · exact h1 ⟨ha, fun e ht => hc ⟨e, ht⟩⟩
  · intro h c'
    obtain ⟨h1, h2⟩ := h c'
    refine ⟨fun ha => h1 (mem_rouse_asleep.mp ha).1, fun hw => ?_⟩
    rcases mem_rouse_woken.mp hw with hw | ⟨rfl, rfl⟩
    · exact h2 hw
    · exact h1 hu

/-- Nor does a broadcast. -/
theorem awake_broadcast {c : C} : ((s.setWoken c (s.woken c ∪ s.asleep c)).setAsleep c ∅).Awake t ↔ s.Awake t := by
  have key : ∀ c', (t ∉ ((s.setWoken c (s.woken c ∪ s.asleep c)).setAsleep c ∅).asleep c' ∧
      t ∉ ((s.setWoken c (s.woken c ∪ s.asleep c)).setAsleep c ∅).woken c') ↔
      t ∉ s.asleep c' ∧ t ∉ s.woken c' := by
    intro c'
    by_cases hcc : c' = c
    · subst hcc
      simp [and_comm]
    · simp [setAsleep_of_ne _ hcc, setWoken_of_ne _ hcc]
  exact forall_congr' key

end Waiting

section Inv

variable {P : Code T M C E V X L} {s s' : State T M C X L} {t : T} {a : Act T V}

theorem Waits.awake (h : Waits P s) (hc : ∀ c m, P.call (s.loc t) ≠ .cndWait c m) : s.Awake t := fun c =>
  ⟨fun ha => by obtain ⟨m, hm⟩ := h.call c t (.inl ha); exact hc c m hm,
    fun hw => by obtain ⟨m, hm⟩ := h.call c t (.inr hw); exact hc c m hm⟩

/-- A thread that waits on `c` waits on no other condition variable. -/
theorem Waits.only (h : Waits P s) {c c' : C} {m : M} (hc : P.call (s.loc t) = .cndWait c m)
    (hw : t ∈ s.asleep c' ∨ t ∈ s.woken c') : c' = c := by
  obtain ⟨m', hm⟩ := h.call c' t hw
  rw [hc, Call.cndWait.injEq] at hm
  exact hm.1.symm

/-- At most one thread is inside. -/
theorem Owned.alone {m : M} {inside : L → Prop} (h : Owned m inside s) {t u : T} (ht : inside (s.loc t))
    (hu : inside (s.loc u)) : t = u := by
  have := (h t ht).symm.trans (h u hu)
  exact Option.some.inj this

theorem Mutual.owned {m : M} {inside : L → Prop} (h : Mutual m inside s) (hE : Enclosed P m inside) (hW : Waits P s) :
    Owned m inside s := fun t ht =>
  (h t).mpr ⟨ht, hW.awake fun c _ hc => hE.noWait _ c ((hE.wait hc).mp ht ▸ hc)⟩

variable [DecidableEq T]

/-- Who does not move keeps waiting as before, whoever the moving thread is, provided it is awake itself. -/
theorem Waits.advance (h : Waits P s) {r : Ret V} (ht : s.Awake t) : Waits P (P.advance s t r) where
  call c u hu := by
    have hne : u ≠ t := by
      rintro rfl
      rcases hu with hu | hu
      · exact (ht c).1 hu
      · exact (ht c).2 hu
    rw [advance_loc_of_ne hne]
    exact h.call c u hu
  apart := h.apart

/-- A thread that is created was not waiting. -/
theorem Waits.create (h : Waits P s) {u : T} (hu : P.call (s.loc u) = .absent) :
    Waits P { s with loc := Function.update s.loc u (P.entry u) } where
  call c v hv := by
    obtain ⟨m, hm⟩ := h.call c v hv
    have hne : v ≠ u := by
      rintro rfl
      rw [hu] at hm
      cases hm
    exact ⟨m, by simpa [hne] using hm⟩
  apart := h.apart

/-- Only `t` moves; the owner is right about it afterwards. -/
theorem Mutual.move {m : M} {inside : L → Prop} (h : Mutual m inside s)
    (ho : ∀ u, u ≠ t → (s'.owner m = some u ↔ s.owner m = some u)) (hl : ∀ u, u ≠ t → s'.loc u = s.loc u)
    (ha : ∀ u, u ≠ t → (s'.Awake u ↔ s.Awake u))
    (ht : s'.owner m = some t ↔ inside (s'.loc t) ∧ s'.Awake t) : Mutual m inside s' := by
  intro u
  by_cases hu : u = t
  · rw [hu]
    exact ht
  · rw [ho u hu, hl u hu, ha u hu]
    exact h u

/-- A call that is neither on `m` nor a wait leaves the owner where it was. -/
theorem Mutual.advance {m : M} {inside : L → Prop} (hG : Guarded P m inside) (h : Mutual m inside s) {r : Ret V}
    (hl : P.call (s.loc t) ≠ .mtxLock m) (hu : P.call (s.loc t) ≠ .mtxUnlock m)
    (hr : r = .fail → ∃ e, P.call (s.loc t) = .ext e) : Mutual m inside (P.advance s t r) := by
  refine h.move (t := t) (fun _ _ => Iff.rfl) (fun u hut => advance_loc_of_ne hut) (fun _ _ => Iff.rfl) ?_
  rw [advance_loc_self, hG.keep t r s.mem hl hu hr]
  exact h t

/-- A thread that does not take `m` moves, and `m` stays with its owner. -/
theorem Owned.advance {m : M} {inside : L → Prop} (hE : Enclosed P m inside) (h : Owned m inside s) {r : Ret V}
    (hr : P.call (s.loc t) ≠ .mtxLock m ∨ r ≠ .ok) : Owned m inside (P.advance s t r) := by
  intro u hu
  by_cases hut : u = t
  · subst hut
    rw [advance_loc_self] at hu
    rcases hE.enter u r s.mem hu with hi | ⟨hc, hok⟩
    · exact h u hi
    · rcases hr with hr | hr
      · exact absurd hc hr
      · exact absurd hok hr
  · rw [advance_loc_of_ne hut] at hu
    exact h u hu

variable [DecidableEq C]

theorem Waits.rouse (h : Waits P s) {c : C} {u : T} (hu : u ∈ s.asleep c) : Waits P (s.rouse c u) where
  call c' v hv := by
    rw [mem_rouse_asleep, mem_rouse_woken] at hv
    rcases hv with ⟨hv, -⟩ | hv | ⟨rfl, rfl⟩
    · exact h.call c' v (.inl hv)
    · exact h.call c' v (.inr hv)
    · exact h.call c' v (.inl hu)
  apart c' v hv hw := by
    rw [mem_rouse_asleep] at hv
    rcases mem_rouse_woken.mp hw with hw | ⟨rfl, rfl⟩
    · exact h.apart c' v hv.1 hw
    · exact hv.2 rfl rfl

theorem Waits.broadcast (h : Waits P s) (c : C) :
    Waits P ((s.setWoken c (s.woken c ∪ s.asleep c)).setAsleep c ∅) where
  call c' u hu := by
    by_cases hcc : c' = c
    · subst hcc
      simp only [setAsleep_self, Finset.notMem_empty, setAsleep_woken, setWoken_self, Finset.mem_union,
        false_or] at hu
      exact h.call c' u hu.symm
    · simp only [setAsleep_of_ne _ hcc, setWoken_asleep, setAsleep_woken, setWoken_of_ne _ hcc] at hu
      exact h.call c' u hu
  apart c' u hu hw := by
    by_cases hcc : c' = c
    · subst hcc
      simp at hu
    · simp only [setAsleep_of_ne _ hcc, setWoken_asleep, setAsleep_woken, setWoken_of_ne _ hcc] at hu hw
      exact h.apart c' u hu hw

variable [DecidableEq M]

/-- A thread that is awake at a wait call may fall asleep there. -/
theorem Waits.sleep (h : Waits P s) {c : C} {m : M} (hc : P.call (s.loc t) = .cndWait c m) (hw : t ∉ s.woken c)
    (o : Option T) : Waits P ((s.setOwner m o).setAsleep c (insert t (s.asleep c))) where
  call c' u hu := by
    by_cases hcc : c' = c
    · subst hcc
      simp only [setAsleep_self, Finset.mem_insert, setAsleep_woken, setOwner_woken] at hu
      rcases hu with (rfl | hu) | hu
      · exact ⟨m, hc⟩
      · exact h.call c' u (.inl hu)
      · exact h.call c' u (.inr hu)
    · rw [setAsleep_of_ne _ hcc] at hu
      exact h.call c' u hu
  apart c' u hu := by
    by_cases hcc : c' = c
    · subst hcc
      simp only [setAsleep_self, Finset.mem_insert] at hu
      rcases hu with rfl | hu
      · exact hw
      · exact h.apart c' u hu
    · rw [setAsleep_of_ne _ hcc] at hu
      exact h.apart c' u hu

/-- Once woken and with the mutex in hand, a thread waits no more. -/
theorem Waits.awake_reacquire (h : Waits P s) {c : C} {m : M} (hc : P.call (s.loc t) = .cndWait c m)
    (hw : t ∈ s.woken c) (o : Option T) : ((s.setWoken c ((s.woken c).erase t)).setOwner m o).Awake t := by
  intro c'
  by_cases hcc : c' = c
  · subst hcc
    exact ⟨fun ha => h.apart c' t ha hw, by simp⟩
  · simp only [setOwner_asleep, setWoken_asleep, setOwner_woken, setWoken_of_ne _ hcc]
    exact ⟨fun ha => hcc (h.only hc (.inl ha)), fun hw' => hcc (h.only hc (.inr hw'))⟩

theorem Waits.erase (h : Waits P s) {c : C} (m : M) (o : Option T) (t : T) :
    Waits P ((s.setWoken c ((s.woken c).erase t)).setOwner m o) where
  call c' u hu := by
    by_cases hcc : c' = c
    · subst hcc
      simp only [setOwner_asleep, setWoken_asleep, setOwner_woken, setWoken_self, Finset.mem_erase] at hu
      exact h.call c' u (hu.imp_right And.right)
    · simp only [setOwner_asleep, setWoken_asleep, setOwner_woken, setWoken_of_ne _ hcc] at hu
      exact h.call c' u hu
  apart c' u hu hw := by
    refine h.apart c' u hu ?_
    by_cases hcc : c' = c
    · subst hcc
      simp only [setOwner_woken, setWoken_self, Finset.mem_erase] at hw
      exact hw.2
    · rwa [setOwner_woken, setWoken_of_ne _ hcc] at hw

/-- Every step keeps the waiting threads at their calls. -/
theorem Waits.step (h : Waits P s) (hs : Trans P s a s') : Waits P s' := by
  cases hs with
  | lock hc _ => exact Waits.advance (s := s.setOwner _ _) ⟨h.call, h.apart⟩ (h.awake (by simp [hc]))
  | unlock hc _ => exact Waits.advance (s := s.setOwner _ _) ⟨h.call, h.apart⟩ (h.awake (by simp [hc]))
  | sleep hc _ _ hw => exact h.sleep hc hw _
  | reacquire hc hw _ _ => exact (h.erase _ _ _).advance (h.awake_reacquire hc hw _)
  | @waitFail t c m hc ha hw =>
    refine h.advance fun c' => ⟨fun ha' => ?_, fun hw' => ?_⟩
    · exact ha (h.only hc (.inl ha') ▸ ha')
    · exact hw (h.only hc (.inr hw') ▸ hw')
  | signal hc hu => exact (h.rouse hu).advance ((awake_rouse hu).mpr (h.awake (by simp [hc])))
  | signalNone hc _ => exact h.advance (h.awake (by simp [hc]))
  | broadcast hc => exact (h.broadcast _).advance (awake_broadcast.mpr (h.awake (by simp [hc])))
  | create hc hu => exact (h.create hu).advance (h.awake (by simp [hc]))
  | join hc _ => exact h.advance (h.awake (by simp [hc]))
  | ext hc => exact h.advance (h.awake (by simp [hc]))
  | fail hc => exact h.advance (h.awake fun c m e => by rw [e] at hc; cases hc)
  | spurious hc hu => exact h.rouse hu

/-- **The owner of the mutex is the thread in the critical section**, as long as no synchronisation call fails. -/
theorem Guarded.mutual {m : M} {inside : L → Prop} (hG : Guarded P m inside) (hW : Waits P s)
    (h : Mutual m inside s) (hs : Trans P s a s') (hok : P.syncOk s a = true) : Mutual m inside s' := by
  have hfail : ∀ {t : T}, P.syncOk s (.ret t (.fail : Ret V)) = true → ∃ e, P.call (s.loc t) = .ext e :=
    Code.ext_of_syncOk
  cases hs with
  | @lock t m' hc ho =>
    have ht : s.Awake t := hW.awake (by simp [hc])
    by_cases hm : m' = m
    · subst hm
      refine h.move (t := t) (fun u hu => ?_) (fun u hu => advance_loc_of_ne hu) (fun _ _ => Iff.rfl) ?_
      · simp [ho, Ne.symm hu]
      · simp only [advance_owner, setOwner_owner_self, advance_loc_self, setOwner_loc, true_iff]
        exact ⟨hG.locked t _ hc, ht⟩
    · have hm' : m ≠ m' := Ne.symm hm
      refine Mutual.advance (s := s.setOwner m' (some t)) hG (fun u => ?_) ?_ ?_ (by simp)
      · rw [setOwner_owner_of_ne _ hm']
        exact h u
      · simp [hc, hm]
      · simp [hc]
  | @unlock t m' hc ho =>
    by_cases hm : m' = m
    · subst hm
      refine h.move (t := t) (fun u hu => ?_) (fun u hu => advance_loc_of_ne hu) (fun _ _ => Iff.rfl) ?_
      · simp [ho, Ne.symm hu]
      · simp only [advance_owner, setOwner_owner_self, advance_loc_self, setOwner_loc, reduceCtorEq, false_iff,
          not_and]
        exact fun hi => absurd hi (hG.unlocked t _ hc)
    · have hm' : m ≠ m' := Ne.symm hm
      refine Mutual.advance (s := s.setOwner m' none) hG (fun u => ?_) ?_ ?_ (by simp)
      · rw [setOwner_owner_of_ne _ hm']
        exact h u
      · simp [hc]
      · simp [hc, hm]
  | @sleep t c m' hc ho _ hw =>
    refine h.move (t := t) (fun u hu => ?_) (fun _ _ => rfl) (fun u hu => ?_) ?_
    · by_cases hm : m' = m
      · subst hm
        simp [ho, Ne.symm hu]
      · simp [setOwner_owner_of_ne _ (Ne.symm hm)]
    · refine forall_congr' fun c' => ?_
      by_cases hcc : c' = c
      · subst hcc
        simp [hu]
      · simp [setAsleep_of_ne _ hcc]
    · have hna : ¬ ((s.setOwner m' none).setAsleep c (insert t (s.asleep c))).Awake t := fun hA =>
        (hA c).1 (by simp)
      refine iff_of_false (fun he => ?_) fun hA => hna hA.2
      by_cases hm : m' = m
      · subst hm
        simp at he
      · rw [setAsleep_owner, setOwner_owner_of_ne _ (Ne.symm hm)] at he
        exact hm ((hG.wait hc).mp ((h t).mp he).1)
  | @reacquire t c m' r hc hw ho hr =>
    have hr' : r = .ok := by
      rcases hr with rfl | ⟨rfl, -⟩
      · rfl
      · obtain ⟨e, he⟩ := hfail hok
        rw [hc] at he
        cases he
    subst hr'
    have hk := hG.keep t .ok s.mem (by rw [hc]; simp) (by rw [hc]; simp) (by simp)
    refine h.move (t := t) (fun u hu => ?_) (fun u hu => advance_loc_of_ne hu) (fun u hu => ?_) ?_
    · by_cases hm : m' = m
      · subst hm
        simp [ho, Ne.symm hu]
      · simp [setOwner_owner_of_ne _ (Ne.symm hm)]
    · refine forall_congr' fun c' => ?_
      by_cases hcc : c' = c
      · subst hcc
        simp [hu]
      · simp [setWoken_of_ne _ hcc]
    · have hA := hW.awake_reacquire hc hw (some t)
      rw [advance_loc_self]
      simp only [advance_owner, setOwner_loc, setWoken_loc, setOwner_mem]
      refine Iff.trans ?_ (and_iff_left hA).symm
      refine Iff.trans ?_ hk.symm
      rw [hG.wait hc]
      by_cases hm : m' = m
      · subst hm
        simp
      · simp only [setOwner_owner_of_ne _ (Ne.symm hm), setWoken_owner, hm, iff_false]
        intro he
        exact hm ((hG.wait hc).mp ((h t).mp he).1)
  | waitFail hc _ _ =>
    obtain ⟨e, he⟩ := hfail hok
    rw [hc] at he
    cases he
  | @signal t u c hc hu =>
    refine Mutual.advance (s := s.rouse c u) hG (fun v => ?_) (by simp [hc]) (by simp [hc]) (by simp)
    rw [awake_rouse hu]
    exact h v
  | signalNone hc _ => exact h.advance hG (by simp [hc]) (by simp [hc]) (by simp)
  | @broadcast t c hc =>
    refine Mutual.advance (s := (s.setWoken c _).setAsleep c ∅) hG (fun v => ?_) (by simp [hc]) (by simp [hc])
      (by simp)
    rw [awake_broadcast]
    exact h v
  | @create t u hc hu =>
    have hut : t ≠ u := by
      rintro rfl
      rw [hc] at hu
      cases hu
    refine Mutual.advance (s := { s with loc := Function.update s.loc u (P.entry u) }) hG (fun v => ?_)
      (by simp [hut, hc]) (by simp [hut, hc]) (by simp)
    by_cases hv : v = u
    · subst hv
      simp only [Function.update_self]
      exact iff_of_false (fun he => hG.absent hu ((h v).mp he).1) fun hi => hG.entry v hi.1
    · simp only [Function.update_of_ne hv]
      exact h v
  | join hc _ => exact h.advance hG (by simp [hc]) (by simp [hc]) (by simp)
  | ext hc => exact h.advance hG (by simp [hc]) (by simp [hc]) fun _ => ⟨_, hc⟩
  | fail hc =>
    obtain ⟨e, he⟩ := hfail hok
    rw [he] at hc
    cases hc
  | @spurious u c m' hc hu =>
    intro v
    rw [awake_rouse hu]
    exact h v

/-! ### When anything may fail -/

omit [DecidableEq T] [DecidableEq C] in
/-- The owner of another mutex does not matter. -/
theorem Owned.other {m m' : M} {inside : L → Prop} (h : Owned m inside s) (o : Option T) (hm : m' ≠ m) :
    Owned m inside (s.setOwner m' o) := fun u hu => by
  rw [setOwner_owner_of_ne _ (Ne.symm hm)]
  exact h u hu

/-- **Who is inside owns the mutex**, whichever calls fail. -/
theorem Enclosed.owned {m : M} {inside : L → Prop} (hE : Enclosed P m inside) (h : Owned m inside s)
    (hs : Trans P s a s') : Owned m inside s' := by
  cases hs with
  | @lock t m' hc ho =>
    by_cases hm : m' = m
    · subst hm
      intro u hu
      by_cases hut : u = t
      · subst hut
        simp
      · rw [advance_loc_of_ne hut] at hu
        have := h u hu
        rw [ho] at this
        cases this
    · refine (h.other _ hm).advance hE (.inl ?_)
      rw [setOwner_loc, hc]
      exact fun e => hm (Call.mtxLock.inj e)
  | @unlock t m' hc ho =>
    by_cases hm : m' = m
    · subst hm
      intro u hu
      by_cases hut : u = t
      · subst hut
        rw [advance_loc_self] at hu
        exact absurd hu (hE.unlocked u _ hc)
      · rw [advance_loc_of_ne hut] at hu
        exact absurd (Option.some.inj (ho.symm.trans (h u hu))).symm hut
    · exact (h.other _ hm).advance hE (.inl (by simp [hc]))
  | @sleep t c m' hc ho _ _ =>
    have hm : m' ≠ m := fun e => hE.noWait _ c (e ▸ hc)
    exact h.other none hm
  | @reacquire t c m' r hc hw ho hr =>
    have hm : m' ≠ m := fun e => hE.noWait _ c (e ▸ hc)
    exact Owned.advance (s := (s.setWoken c _).setOwner m' (some t)) hE
      (Owned.other (s := s.setWoken c _) h _ hm) (.inl (by simp [hc]))
  | waitFail hc _ _ => exact h.advance hE (.inr nofun)
  | @signal t u c hc hu => exact Owned.advance (s := s.rouse c u) hE h (.inl (by simp [hc]))
  | signalNone hc _ => exact h.advance hE (.inl (by simp [hc]))
  | @broadcast t c hc => exact Owned.advance (s := (s.setWoken c _).setAsleep c ∅) hE h (.inl (by simp [hc]))
  | @create t u hc hu =>
    have hut : t ≠ u := by
      rintro rfl
      rw [hc] at hu
      cases hu
    refine Owned.advance (s := { s with loc := Function.update s.loc u (P.entry u) }) hE (fun v hv => ?_)
      (.inl (by simp [hut, hc]))
    by_cases hvu : v = u
    · subst hvu
      simp only [Function.update_self] at hv
      exact absurd hv (hE.entry v)
    · simp only [Function.update_of_ne hvu] at hv
      exact h v hv
  | join hc _ => exact h.advance hE (.inl (by simp [hc]))
  | ext hc => exact h.advance hE (.inl (by simp [hc]))
  | fail hc => exact h.advance hE (.inr nofun)
  | spurious hc hu => exact h

end Inv

end Conc
