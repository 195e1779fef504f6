import MrLib.Queue.Refine

/-!
# A queue used by any number of threads

`queueSystem T cap es block` is a queue of `cap` elements of `es` bytes, `block` being the memory that `malloc` gave to
`mr_queue_init`; each thread of `T` calls `mr_queue_push`, `mr_queue_pop` and `mr_queue_close` as it likes, for ever.
The history of calls and returns is the memory of the client, which the queue does not read.

* `no_lost_wakeup`: between critical sections, a thread that sleeps on `empty` means that the queue is open and that
  every element has a woken consumer on its way to it, and a thread that sleeps on `full` the same for the free slots.
* `queue_refines_stack`: the history is one of the atomic bounded stack, whose elements are those in the buffer.
-/

namespace MrLib

open Conc
open Conc.BoundedStack (Op)

/-- A call or a return of a queue operation. -/
inductive QEvent (T : Type)
  | call (t : T) (o : Op Bytes)
  | ret (t : T) (o : Op Bytes) (r : QRet UInt8)
  deriving DecidableEq

/-- The threads choose their next operation, and record its call and its return. A push passes `element_size` bytes. -/
def queueUser (T : Type) (es : Nat) : Client T UInt8 es (List (QEvent T)) (Option (Op Bytes)) where
  call _ := .sys .choose
  back t f b h :=
    match f, b with
    | none, .own (.val (.op (.push d))) =>
      if hd : d.length = es then (.push ⟨d, hd⟩ (some (.push d)), h ++ [.call t (.push d)]) else (.own none, h)
    | none, .own (.val (.op .pop)) => (.pop (some .pop), h ++ [.call t .pop])
    | none, .own (.val (.op .close)) => (.close (some .close), h ++ [.call t .close])
    | some o, .queue r => (.own none, h ++ [.ret t o r])
    | _, _ => (.own none, h)
  entry _ := .own none

/-- A state of the threads and their queue. -/
abbrev QState (T : Type) (es : Nat) := PState T UInt8 es (List (QEvent T)) (Option (Op Bytes))

def queueSystem (T : Type) [DecidableEq T] (cap es : Nat) (block : List UInt8) : Lts (QState T es) (Act T Val) where
  init := {
    loc := fun _ => .own none
    owner := fun _ => none
    asleep := fun _ => ∅
    woken := fun _ => ∅
    mem := ⟨mrQueueInit block cap es, ⟨[], 0⟩, []⟩ }
  step := (runtime (queueUser T es)).step

variable {T : Type} [DecidableEq T] {cap es : Nat} {block : List UInt8} {s : QState T es}

/-- **The invariant of the queue holds in every state reached without a failing call.** -/
theorem queueSystem_inv (hw : cap * es < sizeT) (hb : block.length = allocSize cap es)
    (h : Reach (queueSystem T cap es block) (fun _ a => a.ok = true) s) :
    QueueInv (queueUser T es) s ∧ s.mem.queue.capacity = cap := by
  refine h.inv (I := fun s => QueueInv (queueUser T es) s ∧ s.mem.queue.capacity = cap)
    ⟨queueInv_init hw hb (fun _ => rfl) rfl (fun _ => rfl) (fun _ => rfl) rfl, rfl⟩ ?_
  rintro s a s' ⟨hi, hc⟩ hok hs
  exact ⟨hi.step hs (Code.syncOk_of_ok _ _ hok), (step_capacity hs).trans hc⟩

/-- A woken thread can go on as soon as the mutex is free. -/
theorem woken_can_go (h : QueueInv (queueUser T es) s) (ho : s.owner .queue = none) {c : Cv} {t : T}
    (ht : t ∈ s.woken c) : ((queueSystem T cap es block).step s (.ret t .ok)).isSome := by
  obtain ⟨m, hm⟩ := h.waits.call c t (.inr ht)
  obtain ⟨l, f, hl, hp, rfl⟩ := wait_of_call hm
  simp [queueSystem, Code.step, hm, Code.reacquire, ht, ho]

/-- **No lost wake-up.** -/
theorem no_lost_wakeup (hw : cap * es < sizeT) (hb : block.length = allocSize cap es)
    (h : Reach (queueSystem T cap es block) (fun _ a => a.ok = true) s) :
    -- in every state, counting the signal or the broadcast that the thread inside is about to send
    ((s.asleep .empty).Nonempty →
      (s.mem.queue.closed = true → ∃ l, (monitor s).holder = some l ∧ l.prim = .broadcast .empty) ∧
      s.mem.queue.count ≤ (s.woken .empty).card + (monitor s).owed .empty) ∧
    ((s.asleep .full).Nonempty → cap - s.mem.queue.count ≤ (s.woken .full).card + (monitor s).owed .full) ∧
    -- in every state between critical sections
    (s.owner .queue = none →
      ((s.asleep .empty).Nonempty → s.mem.queue.closed = false ∧ s.mem.queue.count ≤ (s.woken .empty).card) ∧
      ((s.asleep .full).Nonempty → cap - s.mem.queue.count ≤ (s.woken .full).card) ∧
      (∀ c, ∀ t ∈ s.woken c, ((queueSystem T cap es block).step s (.ret t .ok)).isSome)) := by
  obtain ⟨hq, rfl⟩ := queueSystem_inv hw hb h
  have hE : (s.asleep .empty).Nonempty → s.mem.queue.count ≤ (s.woken .empty).card + (monitor s).owed .empty :=
    hq.inv.empty
  have hO : (s.asleep .empty).Nonempty → s.mem.queue.closed = true →
      ∃ l, (monitor s).holder = some l ∧ l.prim = .broadcast .empty := hq.inv.open_
  have hF : (s.asleep .full).Nonempty →
      s.mem.queue.capacity - s.mem.queue.count ≤ (s.woken .full).card + (monitor s).owed .full := hq.inv.full
  refine ⟨fun ha => ⟨hO ha, hE ha⟩, hF, fun ho => ?_⟩
  have hh : (monitor s).holder = none := by simp [monitor, ho]
  have howed : ∀ c, (monitor s).owed c = 0 := fun c => by simp [Monitor.owed, hh]
  refine ⟨fun ha => ⟨?_, ?_⟩, fun ha => ?_, fun c t ht => woken_can_go hq ho ht⟩
  · by_contra hc
    obtain ⟨l, hl, -⟩ := hO ha (by simpa using hc)
    rw [hh] at hl
    cases hl
  · simpa only [howed, Nat.add_zero] using hE ha
  · simpa only [howed, Nat.add_zero] using hF ha

/-- Two consumers of a queue of one byte sleep, a producer pushes and wakes the first. -/
def twoSleepers : List (Act (Fin 3) Val) :=
  [.ret 0 (.val (.op .pop)), .ret 0 .ok, .sleep 0, .ret 1 (.val (.op .pop)), .ret 1 .ok, .sleep 1,
    .ret 2 (.val (.op (.push [7]))), .ret 2 .ok, .wake 2 0, .ret 2 .ok]

theorem no_lost_wakeup_twoSleepers :
    ∃ s : QState (Fin 3) 1, Reach (queueSystem (Fin 3) 1 1 [0]) (fun _ a => a.ok = true) s ∧
      s.mem.queue.count = 1 ∧ (s.asleep .empty).Nonempty ∧ s.mem.queue.closed = false ∧
      s.mem.queue.count ≤ (s.woken .empty).card := by
  obtain ⟨s, hr, hc, ha, ho⟩ := reach_of_runP (T := queueSystem (Fin 3) 1 1 [0]) (P := fun _ a => a.ok)
    (fun s => s.mem.queue.count = 1 ∧ (s.asleep .empty).Nonempty ∧ s.owner .queue = none) twoSleepers (by decide)
  exact ⟨s, hr, hc, ha, ((no_lost_wakeup (by decide) (by decide) hr).2.2 ho).1 ha⟩

end MrLib
