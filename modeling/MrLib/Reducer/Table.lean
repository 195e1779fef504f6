import MrLib.Protocol.Receive

/-!
# The hash table of the reducer

`hash_function`, `find_or_create_token` and `add_value_to_token` of `reducer.c`, and the collection loop of
`reducer_process_main` that calls them. The nodes live in a heap; the address of a node is the number of nodes created
before it, as `malloc` returns a block that is not in use and the loop frees no node. The slots of a `values` array
that were not written are `none`.
-/

namespace MrLib

open Conc

/-- `MR_REDUCER_HASH_TABLE_SIZE` -/
def hashTableSize : Nat := 1024

abbrev Ptr := Nat

/-- `token_node_t` -/
structure Node where
  token : Bytes
  values : List (Option Bytes)
  count : Nat
  capacity : Nat
  next : Option Ptr
  deriving DecidableEq

/-- The heap of nodes, and `hash_table`. -/
structure Table where
  heap : List Node
  buckets : List (Option Ptr)
  deriving DecidableEq

/-- `token_node_t* hash_table[MR_REDUCER_HASH_TABLE_SIZE] = {0};` -/
def Table.empty : Table := ⟨[], List.replicate hashTableSize none⟩

/-- `c = *str++` as the `int` it is added as: `char` is signed. -/
def signedChar (c : UInt8) : UInt64 := c.toInt8.toInt64.toUInt64

/-- `hash_function` -/
def hashFunction (str : Bytes) : Nat :=
  (str.foldl (fun (hash : UInt64) c => ((hash <<< 5) + hash) + signedChar c) 5381).toNat % hashTableSize

/-- The result of the search along a chain. -/
inductive Walk
  | found (p : Ptr)
  | null
  /-- The chain has a dangling pointer, or does not end. -/
  | astray

/-- The `while` loop of `find_or_create_token`. A chain that ends has no more nodes than the heap. -/
def walk (heap : List Node) (token : Bytes) : Nat → Option Ptr → Walk
  | _, none => .null
  | 0, some _ => .astray
  | fuel + 1, some p =>
    match heap[p]? with
    | none => .astray
    | some node => if node.token = token then .found p else walk heap token fuel node.next

/-- The new node of a token, at the head of its bucket. -/
def Table.create (tb : Table) (token : Bytes) : Table where
  heap := tb.heap ++ [⟨token, [], 0, 0, (tb.buckets[hashFunction token]?).join⟩]
  buckets := tb.buckets.set (hashFunction token) (some tb.heap.length)

/-- `sizeof(token_node_t)` -/
def sizeofNode : Nat := 40

/-- `sizeof(mr_value_t)` -/
def sizeofValue : Nat := 16

/-- `find_or_create_token` -/
def findOrCreateToken (tb : Table) (token : Bytes) : IoProg (Option (Ptr × Table)) := do
  match walk tb.heap token tb.heap.length (tb.buckets[hashFunction token]?).join with
  | .found p => return some (p, tb)
  | .astray =>
    let _ ← sysCall .stuck
    return none
  | .null =>
    if ← allocates (.malloc sizeofNode) then
      -- `strdup`
      if ← allocates (.malloc (token.length + 1)) then
        return some (tb.heap.length, tb.create token)
      return none
    return none

/-- `size_t new_capacity = node->capacity == 0 ? 8 : node->capacity * 2;` -/
def newCapacity (capacity : Nat) : Nat := if capacity = 0 then 8 else capacity * 2 % sizeT

/-- `realloc` keeps the old slots. -/
def Node.grow (node : Node) : Node :=
  { node with
    values := node.values ++ List.replicate (newCapacity node.capacity - node.values.length) none
    capacity := newCapacity node.capacity }

/-- `node->values[node->count].data = value; ... node->count++;` -/
def Node.append (node : Node) (value : Bytes) : Node :=
  { node with values := node.values.set node.count (some value), count := node.count + 1 }

/-- `add_value_to_token` -/
def addValueToToken (node : Node) (value : Bytes) : IoProg (Option Node) := do
  if node.count = node.capacity then
    if ← allocates (.realloc (newCapacity node.capacity * sizeofValue % sizeT)) then
      return some (node.grow.append value)
    return none
  return some (node.append value)

/-- One pair of the collection loop: `none` is the `break` with `res = -1`. -/
def collectPair (tb : Table) (token : Option Bytes) (value : Bytes) : IoProg (Option Table) := do
  match token with
  | none =>
    let _ ← sysCall .stuck
    return none
  | some block =>
    match ← findOrCreateToken tb (cstr block) with
    | none =>
      mrLogError "Failed to find or create token node for token %s"
      return none
    | some (p, tb) =>
      match tb.heap[p]? with
      | none =>
        let _ ← sysCall .stuck
        return none
      | some node =>
        match ← addValueToToken node value with
        | none =>
          mrLogError "Failed to add value to token node for token %s"
          return none
        | some node => return some { tb with heap := tb.heap.set p node }

/-- What one iteration of the collection loop leads to. -/
inductive CollectStep
  /-- A pair was received, and is in the table. -/
  | pair (token : Option Bytes) (value : Bytes) (tb : Table)
  /-- The loop has ended with `res == 1`. -/
  | eof
  /-- The loop has ended with `res == -1`. -/
  | failed

/-- One iteration of the collection loop. -/
def collectStep (tb : Table) : IoProg CollectStep := do
  match ← receivePairFromMapper with
  | .pair token value =>
    match ← collectPair tb token value with
    | none => return .failed
    | some tb => return .pair token value tb
  | .eof => return .eof
  | .failed => return .failed

/-- The state of the collection loop. -/
inductive Collect
  /-- More pairs may come. -/
  | more (tb : Table) (pairsReceived : Nat)
  | collected (tb : Table) (pairsReceived : Nat)
  | failed
  deriving DecidableEq

/-- At most `n` iterations. -/
def collect : Nat → Table → Nat → IoProg Collect
  | 0, tb, pairsReceived => .ret (.more tb pairsReceived)
  | n + 1, tb, pairsReceived => do
    match ← collectStep tb with
    | .pair _ _ tb => collect n tb (pairsReceived + 1)
    | .eof => return .collected tb pairsReceived
    | .failed => return .failed

end MrLib
