import MrLib.Lib.Slots
import MrLib.Lib.Threads

/-!
# The bounded queue of `queue.c`

`mrQueueInit`, `mrQueuePush`, `mrQueuePop` and `mrQueueClose`. A call of one of the last three is a run through the
locations `QLoc`, one for each call it makes on the mutex and the two condition variables; `QLoc.call` is that call
and `QLoc.next` the code after it, up to the next call or to the `return`.

The buffer is a list of cells of type `β` (bytes, or whole objects where the contents of an element do not matter);
an element is `es` cells, `es` being `element_size`. The asserts of `queue.c` are compiled out, as in the release
build.
-/

namespace MrLib

open Conc

/-- The number of values of `size_t`. -/
def sizeT : Nat := 2 ^ 64

theorem one_lt_sizeT : 1 < sizeT := by decide

/-- The mutexes of a mapper or reducer process: `queue.mutex` and `stdout_mutex`. -/
inductive Mtx
  | queue
  | stdout
  deriving DecidableEq

/-- The condition variables of the queue. -/
inductive Cv
  | full
  | empty
  deriving DecidableEq

/-- `mr_queue_t`, without its mutex and condition variables. -/
structure Queue (β : Type) where
  capacity : Nat
  elementSize : Nat
  count : Nat
  closed : Bool
  buffer : List β

/-- An element: `es` cells. -/
def Elem (β : Type) (es : Nat) : Type := { x : List β // x.length = es }

variable {β V E T : Type} {es : Nat}

/-- The size that `mr_queue_init` passes to `malloc`. -/
def allocSize (capacity elementSize : Nat) : Nat := capacity * elementSize % sizeT

/-- `mr_queue_init` on the block of memory that `malloc` returned. -/
def mrQueueInit (block : List β) (capacity elementSize : Nat) : Queue β where
  capacity := capacity
  elementSize := elementSize
  count := 0
  closed := false
  buffer := block

/-- `q->count * q->element_size`. -/
def Queue.offset (q : Queue β) (count : Nat) : Nat := count * q.elementSize % sizeT

/-- `memcpy(q->buffer + (q->count * q->element_size), data, q->element_size); q->count++;` -/
def Queue.put (q : Queue β) (x : List β) : Queue β :=
  { q with buffer := store q.buffer (q.offset q.count) x, count := q.count + 1 }

/-- `q->count--; memcpy(out_data, q->buffer + (q->count * q->element_size), q->element_size);` -/
def Queue.take (q : Queue β) : List β × Queue β :=
  (load q.buffer (q.offset (q.count - 1)) q.elementSize, { q with count := q.count - 1 })

/-- The places where a queue operation makes a call. -/
inductive QLoc (β : Type) (es : Nat)
  | pushLock (x : Elem β es)
  | pushWait (x : Elem β es)
  | pushSignal
  | pushUnlock
  /-- `mtx_unlock(&q->mutex); return -1;` -/
  | pushFailed
  | popLock
  | popWait
  | popSignal (x : List β)
  | popUnlock (x : List β)
  /-- `mtx_unlock(&q->mutex); return 1;` -/
  | popClosed
  | popFailed
  | closeLock
  | closeBroadcast
  | closeUnlock
  | closeFailed

/-- What a queue operation returns: its result, and what a pop has copied to `out_data`. -/
structure QRet (β : Type) where
  res : Int
  out : List β
  deriving DecidableEq

/-- The calls a queue operation makes; the mutex is always `q->mutex`. -/
inductive Prim
  | lock
  | unlock
  | wait (c : Cv)
  | signal (c : Cv)
  | broadcast (c : Cv)
  deriving DecidableEq

def Prim.call : Prim → Call T Mtx Cv E
  | .lock => .mtxLock .queue
  | .unlock => .mtxUnlock .queue
  | .wait c => .cndWait c .queue
  | .signal c => .cndSignal c
  | .broadcast c => .cndBroadcast c

def QLoc.prim : QLoc β es → Prim
  | .pushLock _ | .popLock | .closeLock => .lock
  | .pushWait _ => .wait .full
  | .popWait => .wait .empty
  | .pushSignal => .signal .empty
  | .popSignal _ => .signal .full
  | .closeBroadcast => .broadcast .empty
  | .pushUnlock | .pushFailed | .popUnlock _ | .popClosed | .popFailed | .closeUnlock | .closeFailed => .unlock

/-- `while (q->count == q->capacity)`, and what follows the loop. -/
def Queue.pushTest (q : Queue β) (x : Elem β es) : QLoc β es × Queue β :=
  if q.count = q.capacity then (.pushWait x, q) else (.pushSignal, q.put x.1)

/-- `while (q->count == 0 && !q->closed)`, and what follows the loop. -/
def Queue.popTest (q : Queue β) : QLoc β es × Queue β :=
  if q.count = 0 then
    if q.closed then (.popClosed, q) else (.popWait, q)
  else (.popSignal q.take.1, q.take.2)

/-- The code of `mr_queue_push`, `mr_queue_pop` and `mr_queue_close` after each of their calls. -/
def QLoc.next (q : Queue β) : QLoc β es → Ret V → (QLoc β es ⊕ QRet β) × Queue β
  | .pushLock x, .ok => ((q.pushTest x).map .inl id)
  | .pushLock _, _ => (.inr ⟨-1, []⟩, q)
  | .pushWait x, .ok => ((q.pushTest x).map .inl id)
  | .pushWait _, _ => (.inl .pushFailed, q)
  | .pushSignal, .ok => (.inl .pushUnlock, q)
  | .pushSignal, _ => (.inl .pushFailed, q)
  | .pushUnlock, .ok => (.inr ⟨0, []⟩, q)
  | .pushUnlock, _ => (.inr ⟨-1, []⟩, q)
  | .pushFailed, _ => (.inr ⟨-1, []⟩, q)
  | .popLock, .ok => (q.popTest.map .inl id)
  | .popLock, _ => (.inr ⟨-1, []⟩, q)
  | .popWait, .ok => (q.popTest.map .inl id)
  | .popWait, _ => (.inl .popFailed, q)
  | .popSignal x, .ok => (.inl (.popUnlock x), q)
  | .popSignal _, _ => (.inl .popFailed, q)
  | .popUnlock x, .ok => (.inr ⟨0, x⟩, q)
  | .popUnlock _, _ => (.inr ⟨-1, []⟩, q)
  | .popClosed, _ => (.inr ⟨1, []⟩, q)
  | .popFailed, _ => (.inr ⟨-1, []⟩, q)
  | .closeLock, .ok => (.inl .closeBroadcast, { q with closed := true })
  | .closeLock, _ => (.inr ⟨-1, []⟩, q)
  | .closeBroadcast, .ok => (.inl .closeUnlock, q)
  | .closeBroadcast, _ => (.inl .closeFailed, q)
  | .closeUnlock, .ok => (.inr ⟨0, []⟩, q)
  | .closeUnlock, _ => (.inr ⟨-1, []⟩, q)
  | .closeFailed, _ => (.inr ⟨-1, []⟩, q)

/-! ## The stack in the buffer -/

/-- The first `count` slots of the buffer, the top of the stack last. -/
def Queue.elems (q : Queue β) : List (List β) := slots q.buffer q.elementSize q.count

/-- The memory of the queue is in order: the buffer has its full size and the count is within the capacity. -/
structure Queue.WF (q : Queue β) : Prop where
  length : q.buffer.length = q.capacity * q.elementSize
  noWrap : q.capacity * q.elementSize < sizeT
  le : q.count ≤ q.capacity

namespace Queue

variable {q : Queue β} {x : List β}

theorem WF.offset_eq (h : q.WF) {n : Nat} (hn : n ≤ q.capacity) : q.offset n = n * q.elementSize :=
  Nat.mod_eq_of_lt (lt_of_le_of_lt (Nat.mul_le_mul_right _ hn) h.noWrap)

@[simp] theorem length_elems (q : Queue β) : q.elems.length = q.count := length_slots _ _ _

@[simp] theorem put_capacity (x : List β) : (q.put x).capacity = q.capacity := rfl
@[simp] theorem put_elementSize (x : List β) : (q.put x).elementSize = q.elementSize := rfl
@[simp] theorem put_count (x : List β) : (q.put x).count = q.count + 1 := rfl
@[simp] theorem put_closed (x : List β) : (q.put x).closed = q.closed := rfl
@[simp] theorem take_capacity : q.take.2.capacity = q.capacity := rfl
@[simp] theorem take_elementSize : q.take.2.elementSize = q.elementSize := rfl
@[simp] theorem take_count : q.take.2.count = q.count - 1 := rfl
@[simp] theorem take_closed : q.take.2.closed = q.closed := rfl
@[simp] theorem take_buffer : q.take.2.buffer = q.buffer := rfl

theorem mrQueueInit_wf {block : List β} {capacity elementSize : Nat} (hw : capacity * elementSize < sizeT)
    (hl : block.length = allocSize capacity elementSize) : (mrQueueInit block capacity elementSize).WF where
  length := by rw [allocSize, Nat.mod_eq_of_lt hw] at hl; exact hl
  noWrap := hw
  le := Nat.zero_le _

/-- The slot of a push lies inside the buffer. -/
theorem WF.slot_le (h : q.WF) (hc : q.count < q.capacity) : q.offset q.count + q.elementSize ≤ q.buffer.length := by
  rw [h.offset_eq h.le, h.length]
  have := Nat.mul_le_mul_right q.elementSize (show q.count + 1 ≤ q.capacity from hc)
  rw [Nat.add_mul, Nat.one_mul] at this
  exact this

theorem WF.put (h : q.WF) (hx : x.length = q.elementSize) (hc : q.count < q.capacity) : (q.put x).WF where
  length := by
    have hs := h.slot_le hc
    simp only [Queue.put]
    rw [length_store (by rw [hx]; exact hs), h.length]
  noWrap := h.noWrap
  le := hc

theorem WF.take (h : q.WF) : q.take.2.WF where
  length := h.length
  noWrap := h.noWrap
  le := by have := h.le; simp only [take_count, take_capacity]; omega

/-- A push puts its element on top. -/
theorem WF.elems_put (h : q.WF) (hx : x.length = q.elementSize) (hc : q.count < q.capacity) :
    (q.put x).elems = q.elems ++ [x] := by
  have hs := h.slot_le hc
  rw [h.offset_eq h.le] at hs
  simp only [elems, Queue.put, h.offset_eq h.le]
  exact slots_store_succ hx (by omega)

/-- A pop removes the top and returns it. -/
theorem WF.elems_take (h : q.WF) (hc : q.count ≠ 0) : q.elems = q.take.2.elems ++ [q.take.1] := by
  have hle := h.le
  obtain ⟨n, hn⟩ := Nat.exists_eq_succ_of_ne_zero hc
  simp only [elems, Queue.take, hn, Nat.succ_eq_add_one, Nat.add_sub_cancel]
  rw [slots_succ, h.offset_eq (by omega)]

end Queue

end MrLib
