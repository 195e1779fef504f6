import Mathlib.Algebra.BigOperators.Group.List.Basic
import Mathlib.Data.List.Nodup
import Mathlib.Data.List.Range
import MrLib.Protocol.PairStream
import MrLib.Reducer.Table

/-!
# The hash table groups the values by token

`TableInv tb pairs tokens` is the invariant of the collection loop: the chain of a bucket runs through exactly the
nodes whose token hashes to it, newest first; no two nodes have the same token; and the slots of a node hold the values
received with its token, in the order of arrival. `findOrCreateToken_spec` and `addValueToToken_spec` are the two
step lemmas, `grouping` the result about the whole loop.
-/

namespace MrLib

open Conc

/-- A pair as the collection loop sees it. -/
abbrev Pair := Bytes × Bytes

/-- A message as the receiver has it. -/
def Msg.pair (m : Msg) : Pair := (m.token.bytes, m.value.bytes)

/-- The values received with a token, in the order of arrival. -/
def valuesOf (t : Bytes) (pairs : List Pair) : List Bytes := (pairs.filter fun x => x.1 = t).map Prod.snd

/-- The pointer `hd` starts a chain through the nodes `ps` that ends in `NULL`. -/
inductive Chain (heap : List Node) : Option Ptr → List Ptr → Prop
  | nil : Chain heap none []
  | cons {p : Ptr} {node : Node} {ps : List Ptr} (hp : heap[p]? = some node) (h : Chain heap node.next ps) :
      Chain heap (some p) (p :: ps)

/-- `p` is the address of a node whose token hashes to `b`. -/
def inBucket (heap : List Node) (b : Nat) (p : Ptr) : Bool :=
  heap[p]?.any fun node => hashFunction node.token = b

/-- The nodes whose token hashes to `b`, newest first. -/
def bucketNodes (heap : List Node) (b : Nat) : List Ptr :=
  (List.range heap.length).reverse.filter (inBucket heap b)

/-- A node holds `vs` in its first slots, and its array has `capacity` of them. -/
structure Holds (node : Node) (vs : List Bytes) : Prop where
  slots : node.values.length = node.capacity
  values : node.values.take node.count = vs.map some
  count : node.count = vs.length
  le : node.count ≤ node.capacity
  fits : node.capacity * sizeofValue ≤ ptrdiffMax

/-- **The invariant of the collection loop**, after `pairs`, with nodes for `tokens`. -/
structure TableInv (tb : Table) (pairs : List Pair) (tokens : List Bytes) : Prop where
  buckets : tb.buckets.length = hashTableSize
  chains : ∀ b < hashTableSize, Chain tb.heap (tb.buckets[b]?).join (bucketNodes tb.heap b)
  nodup : (tb.heap.map Node.token).Nodup
  tokens : ∀ t, t ∈ tb.heap.map Node.token ↔ t ∈ tokens
  holds : ∀ node ∈ tb.heap, Holds node (valuesOf node.token pairs)
  sum : (tb.heap.map Node.count).sum = pairs.length

theorem hashFunction_lt (str : Bytes) : hashFunction str < hashTableSize := Nat.mod_lt _ (by decide)

/-! ## The search along a chain -/

theorem walk_chain {heap : List Node} {token : Bytes} : ∀ {fuel : Nat} {hd : Option Ptr} {ps : List Ptr},
    Chain heap hd ps → ps.length ≤ fuel →
    (∃ p ∈ ps, ∃ node, heap[p]? = some node ∧ node.token = token ∧ walk heap token fuel hd = .found p) ∨
    ((∀ p ∈ ps, ∀ node, heap[p]? = some node → node.token ≠ token) ∧ walk heap token fuel hd = .null)
  | fuel, _, _, .nil, _ => .inr ⟨by simp, by cases fuel <;> rfl⟩
  | 0, _, _, .cons _ _, h => absurd h (by simp)
  | fuel + 1, _, _, @Chain.cons _ p node ps hp hc, h => by
    by_cases ht : node.token = token
    · exact .inl ⟨p, by simp, node, hp, ht, by simp [walk, hp, ht]⟩
    · have hw : walk heap token (fuel + 1) (some p) = walk heap token fuel node.next := by simp [walk, hp, ht]
      rw [hw]
      rcases walk_chain hc (by simpa using h) with ⟨q, hq, nd, h1, h2, h3⟩ | ⟨h1, h2⟩
      · exact .inl ⟨q, by simp [hq], nd, h1, h2, h3⟩
      · refine .inr ⟨fun q hq nd hnd => ?_, h2⟩
        rcases List.mem_cons.mp hq with rfl | hq
        · rw [hp] at hnd
          cases hnd
          exact ht
        · exact h1 q hq nd hnd

theorem length_bucketNodes_le (heap : List Node) (b : Nat) : (bucketNodes heap b).length ≤ heap.length :=
  (List.length_filter_le _ _).trans (by simp)

theorem mem_bucketNodes {heap : List Node} {b : Nat} {p : Ptr} :
    p ∈ bucketNodes heap b ↔ ∃ node, heap[p]? = some node ∧ hashFunction node.token = b := by
  simp only [bucketNodes, inBucket, List.mem_filter, List.mem_reverse, List.mem_range, Option.any_eq_true,
    decide_eq_true_eq]
  refine ⟨fun h => h.2, fun ⟨node, hp, hb⟩ => ⟨?_, node, hp, hb⟩⟩
  exact (List.getElem?_eq_some_iff.mp hp).1

/-! ## A new node -/

/-- The nodes of a chain stay where they are when the heap grows. -/
theorem Chain.append {heap : List Node} {hd : Option Ptr} {ps : List Ptr} (h : Chain heap hd ps) (node : Node) :
    Chain (heap ++ [node]) hd ps := by
  induction h with
  | nil => exact .nil
  | cons hp _ ih =>
    refine .cons ?_ ih
    rw [List.getElem?_append_left (List.getElem?_eq_some_iff.mp hp).1]
    exact hp

theorem bucketNodes_append (heap : List Node) (node : Node) (b : Nat) :
    bucketNodes (heap ++ [node]) b =
      if hashFunction node.token = b then heap.length :: bucketNodes heap b else bucketNodes heap b := by
  have hold : (List.range heap.length).reverse.filter (inBucket (heap ++ [node]) b) = bucketNodes heap b := by
    refine List.filter_congr fun p hp => ?_
    have hlt : p < heap.length := by simpa using hp
    simp only [inBucket, List.getElem?_append_left hlt]
  have hnew : inBucket (heap ++ [node]) b heap.length = decide (hashFunction node.token = b) := by
    simp [inBucket]
  simp only [bucketNodes, List.length_append, List.length_singleton, List.range_succ, List.reverse_append,
    List.reverse_singleton, List.singleton_append, List.filter_cons, hnew, decide_eq_true_eq, hold]

/-- **The node of a token that had none.** -/
theorem TableInv.create {tb : Table} {pairs : List Pair} {tokens : List Bytes} (h : TableInv tb pairs tokens)
    {token : Bytes} (hn : token ∉ tokens) (hp : valuesOf token pairs = []) :
    TableInv (tb.create token) pairs (token :: tokens) where
  buckets := by simp [Table.create, h.buckets]
  chains b hb := by
    have hlt := hashFunction_lt token
    simp only [Table.create, bucketNodes_append]
    by_cases hh : hashFunction token = b
    · subst hh
      have hget : tb.buckets.length = hashTableSize := h.buckets
      rw [List.getElem?_set_self (by omega)]
      simp only [Option.join_some, if_true]
      refine @Chain.cons _ _ ⟨token, [], 0, 0, (tb.buckets[hashFunction token]?).join⟩ _ (by simp) ?_
      exact (h.chains _ hb).append _
    · rw [List.getElem?_set_ne hh]
      simp only [hh, if_false]
      exact (h.chains b hb).append _
  nodup := by
    have : token ∉ tb.heap.map Node.token := fun hm => hn ((h.tokens token).mp hm)
    simp only [Table.create, List.map_append, List.map_cons, List.map_nil]
    rw [List.nodup_append]
    refine ⟨h.nodup, List.nodup_singleton _, fun a ha b hb he => this ?_⟩
    rw [List.mem_singleton.mp hb] at he
    exact he ▸ ha
  tokens t := by
    simp only [Table.create, List.map_append, List.map_cons, List.map_nil, List.mem_append, List.mem_cons,
      List.not_mem_nil, or_false, h.tokens t]
    exact or_comm
  holds node hm := by
    simp only [Table.create, List.mem_append, List.mem_singleton] at hm
    rcases hm with hm | rfl
    · exact h.holds node hm
    · exact ⟨rfl, by simp [hp], by simp [hp], le_refl 0, Nat.zero_le _⟩
  sum := by simp [Table.create, h.sum]

/-- More tokens may be listed once they have their node. -/
theorem TableInv.congr {tb : Table} {pairs : List Pair} {tokens tokens' : List Bytes} (h : TableInv tb pairs tokens)
    (ht : ∀ t, t ∈ tokens ↔ t ∈ tokens') : TableInv tb pairs tokens' :=
  { h with tokens := fun t => (h.tokens t).trans (ht t) }

section Env

variable {s : Bytes} {α : Type} {Q : α → Bytes → Prop}

/-- A small allocation succeeds. -/
theorem wp_allocates {n : Nat} (hn : n ≤ ptrdiffMax) {k : Bool → IoProg α} (h : (k true).Wp StreamEnv Q s) :
    (allocates (.malloc n) >>= k).Wp StreamEnv Q s := by
  refine ⟨⟨.sys (.val (.bytes (List.replicate n 0))), s, hn, by simp, rfl⟩, fun r s' he => ?_⟩
  match r, he with
  | .sys (.val (.bytes block)), ⟨_, _, hs⟩ =>
    subst hs
    exact h
  | .sys .fail, ⟨hf, _⟩ => exact absurd hn (by omega)

/-- A `realloc` succeeds unless it asks for too much. -/
theorem wp_reallocates {n : Nat} {k : Bool → IoProg α} (h : n ≤ ptrdiffMax → (k true).Wp StreamEnv Q s)
    (hf : ptrdiffMax < n → (k false).Wp StreamEnv Q s) : (allocates (.realloc n) >>= k).Wp StreamEnv Q s := by
  refine ⟨?_, fun r s' he => ?_⟩
  · by_cases hn : n ≤ ptrdiffMax
    · exact ⟨.sys .ok, s, hn, rfl⟩
    · exact ⟨.sys .fail, s, Nat.lt_of_not_le hn, rfl⟩
  · match r, he with
    | .sys .ok, ⟨hn, hs⟩ =>
      subst hs
      exact h hn
    | .sys .fail, ⟨hn, hs⟩ =>
      subst hs
      exact hf hn

/-- **The search**: it finds the node of a token that has one, and gets to the end of the chain for one that has none. -/
theorem TableInv.search {tb : Table} {pairs : List Pair} {tokens : List Bytes} (h : TableInv tb pairs tokens)
    (token : Bytes) :
    (∃ p node, walk tb.heap token tb.heap.length (tb.buckets[hashFunction token]?).join = .found p ∧
      tb.heap[p]? = some node ∧ node.token = token ∧ token ∈ tokens) ∨
    (walk tb.heap token tb.heap.length (tb.buckets[hashFunction token]?).join = .null ∧ token ∉ tokens) := by
  have hc := h.chains _ (hashFunction_lt token)
  rcases @walk_chain _ token _ _ _ hc (length_bucketNodes_le _ _) with ⟨p, -, node, hp, hnt, hw⟩ | ⟨hall, hw⟩
  · exact .inl ⟨p, node, hw, hp, hnt, (h.tokens token).mp (List.mem_map.mpr ⟨node, List.mem_of_getElem? hp, hnt⟩)⟩
  · refine .inr ⟨hw, fun hm => ?_⟩
    obtain ⟨node, hmem, hnt⟩ := List.mem_map.mp ((h.tokens token).mpr hm)
    obtain ⟨p, hp⟩ := List.getElem?_of_mem hmem
    exact hall p (mem_bucketNodes.mpr ⟨node, hp, by rw [hnt]⟩) node hp hnt

/-- A token that has its node. -/
theorem TableInv.found {tb : Table} {pairs : List Pair} {tokens : List Bytes} (h : TableInv tb pairs tokens)
    {token : Bytes} (hm : token ∈ tokens) : TableInv tb pairs (token :: tokens) := by
  refine h.congr fun t => ?_
  simp only [List.mem_cons]
  exact ⟨.inr, fun ho => ho.elim (fun e => e ▸ hm) id⟩

/-- The new node is there. -/
theorem getElem?_create (tb : Table) (token : Bytes) :
    ∃ node, (tb.create token).heap[tb.heap.length]? = some node ∧ node.token = token :=
  ⟨⟨token, [], 0, 0, (tb.buckets[hashFunction token]?).join⟩, by simp [Table.create], rfl⟩

/-- **`find_or_create_token`**: the node of the token, which is a new one exactly when there was none. -/
theorem findOrCreateToken_spec {tb : Table} {pairs : List Pair} {tokens : List Bytes} (h : TableInv tb pairs tokens)
    {token : Bytes} (ht : token.length < ptrdiffMax) (hp : token ∉ tokens → valuesOf token pairs = []) :
    (findOrCreateToken tb token).Wp StreamEnv (fun r s' => s' = s ∧ ∃ p tb', r = some (p, tb') ∧
      TableInv tb' pairs (token :: tokens) ∧ ∃ node, tb'.heap[p]? = some node ∧ node.token = token) s := by
  unfold findOrCreateToken
  rcases h.search token with ⟨p, node, hw, hp, hnt, hm⟩ | ⟨hw, hn⟩
  · rw [hw]
    exact ⟨rfl, p, tb, rfl, h.found hm, node, hp, hnt⟩
  · rw [hw]
    refine wp_allocates (by decide) (wp_allocates (by omega) ?_)
    exact ⟨rfl, _, _, rfl, h.create hn (hp hn), getElem?_create tb token⟩

/-! ## One more value -/

/-- `node'` is `node` with one more value. -/
structure Extends (node node' : Node) : Prop where
  token : node'.token = node.token
  next : node'.next = node.next
  count : node'.count = node.count + 1

theorem Holds.append {node : Node} {vs : List Bytes} (h : Holds node vs) (hc : node.count < node.capacity)
    (value : Bytes) : Holds (node.append value) (vs ++ [value]) where
  slots := by simp [Node.append, h.slots]
  values := by
    have hl : node.count < node.values.length := by rw [h.slots]; exact hc
    simp only [Node.append, List.map_append, List.map_cons, List.map_nil, ← h.values]
    rw [List.take_add_one, List.take_set_of_le (le_refl _), List.getElem?_set_self hl]
    rfl
  count := by simp [Node.append, h.count]
  le := hc
  fits := h.fits

/-- A grown node holds what it held, and has room. -/
theorem Holds.grow {node : Node} {vs : List Bytes} (h : Holds node vs) (hc : node.count = node.capacity)
    (hs : newCapacity node.capacity * sizeofValue % sizeT ≤ ptrdiffMax) :
    Holds node.grow vs ∧ node.grow.count < node.grow.capacity := by
  have hfit := h.fits
  have hslots := h.slots
  simp only [sizeofValue, ptrdiffMax, sizeT] at hfit hs
  have hnew : newCapacity node.capacity = if node.capacity = 0 then 8 else node.capacity * 2 := by
    simp only [newCapacity, sizeT]
    split
    · rfl
    · omega
  have hlt : node.capacity < newCapacity node.capacity := by
    rw [hnew]
    split <;> omega
  have hnfit : newCapacity node.capacity * 16 ≤ 2 ^ 63 - 1 := by
    rw [hnew] at hs ⊢
    split at hs <;> rename_i h0
    · simp [h0]
    · simp only [h0, if_false]
      omega
  refine ⟨⟨?_, ?_, h.count, ?_, hnfit⟩, ?_⟩
  · simp only [Node.grow, List.length_append, List.length_replicate]
    omega
  · simp only [Node.grow]
    rw [List.take_append_of_le_length (by omega)]
    exact h.values
  · simp only [Node.grow]
    omega
  · simp only [Node.grow]
    omega

/-- **`add_value_to_token`**: the value comes after those the node holds; only an array of more than `PTRDIFF_MAX`
bytes is refused. -/
theorem addValueToToken_spec {node : Node} {vs : List Bytes} (h : Holds node vs) (value : Bytes) :
    (addValueToToken node value).Wp StreamEnv (fun r s' => s' = s ∧
      ((∃ node', r = some node' ∧ Extends node node' ∧ Holds node' (vs ++ [value])) ∨
        (r = none ∧ 2 ^ 58 ≤ vs.length))) s := by
  unfold addValueToToken
  split
  · rename_i hc
    refine wp_reallocates (fun hs => ?_) (fun hs => ?_)
    · obtain ⟨hg, hlt⟩ := h.grow hc hs
      exact ⟨rfl, .inl ⟨_, rfl, ⟨rfl, rfl, rfl⟩, hg.append hlt value⟩⟩
    · refine ⟨rfl, .inr ⟨rfl, ?_⟩⟩
      have hfit := h.fits
      rw [← h.count, hc]
      simp only [newCapacity, sizeofValue, ptrdiffMax, sizeT] at *
      split at hs <;> omega
  · rename_i hc
    have hle := h.le
    exact ⟨rfl, .inl ⟨_, rfl, ⟨rfl, rfl, rfl⟩, h.append (by omega) value⟩⟩

end Env

theorem getElem?_set_token {heap : List Node} {p : Ptr} {node node' : Node} (hp : heap[p]? = some node)
    (he : Extends node node') (q : Ptr) :
    (heap.set p node')[q]?.map Node.token = heap[q]?.map Node.token ∧
      (heap.set p node')[q]?.map Node.next = heap[q]?.map Node.next := by
  by_cases hq : p = q
  · subst hq
    have hlt := (List.getElem?_eq_some_iff.mp hp).1
    rw [List.getElem?_set_self hlt, hp]
    exact ⟨congrArg some he.token, congrArg some he.next⟩
  · rw [List.getElem?_set_ne hq]
    exact ⟨rfl, rfl⟩

/-- A value more changes no chain. -/
theorem Chain.set {heap : List Node} {hd : Option Ptr} {ps : List Ptr} (h : Chain heap hd ps) {p : Ptr}
    {node node' : Node} (hp : heap[p]? = some node) (he : Extends node node') : Chain (heap.set p node') hd ps := by
  induction h with
  | nil => exact .nil
  | @cons q nd ps hq _ ih =>
    have hnext := (getElem?_set_token hp he q).2
    rw [hq] at hnext
    obtain ⟨nd', hnd', hn⟩ := Option.map_eq_some_iff.mp hnext
    exact .cons hnd' (hn ▸ ih)

theorem bucketNodes_set {heap : List Node} {p : Ptr} {node node' : Node} (hp : heap[p]? = some node)
    (he : Extends node node') (b : Nat) : bucketNodes (heap.set p node') b = bucketNodes heap b := by
  simp only [bucketNodes, List.length_set]
  refine List.filter_congr fun q _ => ?_
  have htok := (getElem?_set_token hp he q).1
  have key : ∀ o : Option Node, (o.any fun nd => decide (hashFunction nd.token = b)) =
      (o.map Node.token).any fun t => decide (hashFunction t = b) := fun o => by cases o <;> rfl
  simp only [inBucket, key, htok]

theorem map_token_set {heap : List Node} {p : Ptr} {node node' : Node} (hp : heap[p]? = some node)
    (he : Extends node node') : (heap.set p node').map Node.token = heap.map Node.token := by
  refine List.ext_getElem? fun q => ?_
  rw [List.getElem?_map, List.getElem?_map]
  exact (getElem?_set_token hp he q).1

theorem sum_count_set {heap : List Node} {p : Ptr} {node node' : Node} (hp : heap[p]? = some node)
    (he : Extends node node') : ((heap.set p node').map Node.count).sum = (heap.map Node.count).sum + 1 := by
  obtain ⟨hlt, hget⟩ := List.getElem?_eq_some_iff.mp hp
  have hsplit : heap = heap.take p ++ node :: heap.drop (p + 1) := by
    rw [← hget, List.getElem_cons_drop, List.take_append_drop]
  rw [List.set_eq_take_append_cons_drop, if_pos hlt]
  conv_rhs => rw [hsplit]
  simp only [List.map_append, List.map_cons, List.sum_append, List.sum_cons, he.count]
  omega

theorem valuesOf_append (t : Bytes) (pairs : List Pair) (x : Pair) :
    valuesOf t (pairs ++ [x]) = if x.1 = t then valuesOf t pairs ++ [x.2] else valuesOf t pairs := by
  by_cases h : x.1 = t <;> simp [valuesOf, List.filter_append, h]

/-- **One value more.** -/
theorem TableInv.set {tb : Table} {pairs : List Pair} {tokens : List Bytes} (h : TableInv tb pairs tokens) {p : Ptr}
    {node node' : Node} (hp : tb.heap[p]? = some node) (he : Extends node node') {value : Bytes}
    (hv : Holds node' (valuesOf node.token pairs ++ [value])) :
    TableInv { tb with heap := tb.heap.set p node' } (pairs ++ [(node.token, value)]) tokens where
  buckets := h.buckets
  chains b hb := by
    simp only [bucketNodes_set hp he]
    exact (h.chains b hb).set hp he
  nodup := by
    simp only [map_token_set hp he]
    exact h.nodup
  tokens t := by
    simp only [map_token_set hp he]
    exact h.tokens t
  holds nd hm := by
    obtain ⟨q, hq⟩ := List.getElem?_of_mem hm
    simp only at hq
    by_cases hpq : p = q
    · subst hpq
      rw [List.getElem?_set_self (List.getElem?_eq_some_iff.mp hp).1, Option.some.injEq] at hq
      subst hq
      rw [he.token, valuesOf_append, if_pos rfl]
      exact hv
    · rw [List.getElem?_set_ne hpq] at hq
      have hne : node.token ≠ nd.token := by
        intro heq
        obtain ⟨hp', hpt⟩ := List.getElem?_eq_some_iff.mp hp
        obtain ⟨hq', hqt⟩ := List.getElem?_eq_some_iff.mp hq
        refine hpq ((@List.Nodup.getElem_inj_iff _ _ h.nodup p (by simpa using hp') q (by simpa using hq')).mp ?_)
        simpa [hpt, hqt] using heq
      rw [valuesOf_append, if_neg hne]
      exact h.holds nd (List.mem_of_getElem? hq)
  sum := by
    simp only [sum_count_set hp he, h.sum, List.length_append, List.length_singleton]

/-! ## The loop -/

section Loop

variable {s : Bytes} {tb : Table} {pairs : List Pair}

theorem valuesOf_eq_nil {t : Bytes} (h : t ∉ pairs.map Prod.fst) : valuesOf t pairs = [] := by
  have hf : pairs.filter (fun x => x.1 = t) = [] := by
    refine List.filter_eq_nil_iff.mpr fun x hx => ?_
    simp only [decide_eq_true_eq]
    rintro rfl
    exact h (List.mem_map.mpr ⟨x, hx, rfl⟩)
  simp [valuesOf, hf]

theorem length_valuesOf_le (t : Bytes) (pairs : List Pair) : (valuesOf t pairs).length ≤ pairs.length := by
  simp only [valuesOf, List.length_map]
  exact List.length_filter_le _ _

/-- **One pair more.** -/
theorem TableInv.pair {tb : Table} {token : Bytes} (h : TableInv tb pairs (token :: pairs.map Prod.fst)) {p : Ptr}
    {node node' : Node} (hp : tb.heap[p]? = some node) (ht : node.token = token) (he : Extends node node')
    {value : Bytes} (hv : Holds node' (valuesOf node.token pairs ++ [value])) :
    TableInv { tb with heap := tb.heap.set p node' } (pairs ++ [(token, value)])
      ((pairs ++ [(token, value)]).map Prod.fst) := by
  have := h.set hp he hv
  rw [ht] at this
  refine this.congr fun t => ?_
  simp only [List.mem_cons, List.map_append, List.map_cons, List.map_nil, List.mem_append, List.not_mem_nil, or_false]
  exact or_comm

/-- **One pair of the collection loop.** -/
theorem collectPair_spec (h : TableInv tb pairs (pairs.map Prod.fst)) (m : Msg) :
    (collectPair tb (some (m.token.bytes ++ [0])) m.value.bytes).Wp StreamEnv (fun r s' => s' = s ∧
      ((∃ tb', r = some tb' ∧ TableInv tb' (pairs ++ [(m.token.bytes, m.value.bytes)])
          ((pairs ++ [(m.token.bytes, m.value.bytes)]).map Prod.fst)) ∨
        (r = none ∧ 2 ^ 58 ≤ pairs.length))) s := by
  have hcstr : cstr (m.token.bytes ++ [0]) = m.token.bytes := by
    have hnul := m.token.nulFree
    simp only [cstr]
    rw [List.takeWhile_append_of_pos fun c hc => by
      simp only [ne_eq, decide_eq_true_eq]
      rintro rfl
      exact hnul hc]
    simp
  rw [collectPair, hcstr, Prog.wp_bind]
  refine (findOrCreateToken_spec h m.token.fits valuesOf_eq_nil).mono ?_
  rintro r s' ⟨rfl, p, tb', rfl, hinv, node, hp, ht⟩
  simp only [hp]
  have hh := hinv.holds node (List.mem_of_getElem? hp)
  rw [Prog.wp_bind]
  refine (addValueToToken_spec hh m.value.bytes).mono ?_
  rintro r s' ⟨rfl, ⟨node', rfl, hext, hv⟩ | ⟨rfl, hlen⟩⟩
  · exact ⟨rfl, .inl ⟨_, rfl, hinv.pair hp ht hext hv⟩⟩
  · have hle := length_valuesOf_le node.token pairs
    refine ⟨⟨.int 0, s', rfl, rfl⟩, fun r s'' he => ?_⟩
    match r, he with
    | .int r, ⟨_, hs⟩ =>
      subst hs
      exact ⟨rfl, .inr ⟨rfl, by omega⟩⟩

/-- **The collection loop** on a stream of messages: it ends with the table of all of them, or, for want of an array of
more than `PTRDIFF_MAX` bytes, after more than `2 ^ 58` pairs. -/
theorem collect_spec : ∀ (msgs : List Msg) (n : Nat) (tb : Table) (pairs : List Pair), msgs.length < n →
    TableInv tb pairs (pairs.map Prod.fst) →
    (collect n tb pairs.length).Wp StreamEnv (fun r _ =>
      (∃ tb', r = .collected tb' (pairs.length + msgs.length) ∧
        TableInv tb' (pairs ++ msgs.map fun m => (m.token.bytes, m.value.bytes))
          ((pairs ++ msgs.map fun m => (m.token.bytes, m.value.bytes)).map Prod.fst)) ∨
      (r = .failed ∧ 2 ^ 58 ≤ pairs.length + msgs.length)) (msgs.flatMap Msg.wire)
  | _, 0, _, _, h, _ => absurd h (Nat.not_lt_zero _)
  | [], n + 1, tb, pairs, _, hinv => by
    rw [collect, Prog.wp_bind, collectStep, Prog.wp_bind]
    refine (receivePair_eof stdinFileno).mono ?_
    rintro r s' ⟨rfl, rfl⟩
    exact .inl ⟨tb, rfl, by simpa using hinv⟩
  | m :: msgs, n + 1, tb, pairs, h, hinv => by
    rw [collect, Prog.wp_bind, collectStep, Prog.wp_bind, List.flatMap_cons]
    refine (receivePair_wire stdinFileno m _).mono ?_
    rintro r s' ⟨rfl, rfl⟩
    simp only
    rw [Prog.wp_bind]
    refine (collectPair_spec hinv m).mono ?_
    rintro r s' ⟨rfl, ⟨tb', rfl, hinv'⟩ | ⟨rfl, hlen⟩⟩
    · have hl : (pairs ++ [(m.token.bytes, m.value.bytes)]).length = pairs.length + 1 := by simp
      have ih := collect_spec msgs n tb' (pairs ++ [(m.token.bytes, m.value.bytes)]) (Nat.lt_of_succ_lt_succ h) hinv'
      rw [hl] at ih
      refine ih.mono ?_
      rintro r s' (⟨tb'', rfl, hinv''⟩ | ⟨rfl, hlen⟩)
      · refine .inl ⟨tb'', ?_, by simpa using hinv''⟩
        rw [List.length_cons, Nat.add_right_comm, Nat.add_assoc]
      · refine .inr ⟨rfl, ?_⟩
        rw [List.length_cons]
        omega
    · refine .inr ⟨rfl, ?_⟩
      rw [List.length_cons]
      omega

end Loop

/-! ## Grouping -/

/-- What the table is after the pairs `pairs`. -/
structure Grouped (tb : Table) (pairs : List Pair) : Prop where
  /-- There are as many chains as the table has buckets; each ends, and passes no node twice. -/
  chains : tb.buckets.length = hashTableSize ∧ ∀ b < hashTableSize, ∃ ps, Chain tb.heap (tb.buckets[b]?).join ps ∧
    ps.Nodup ∧ ∀ p, p ∈ ps ↔ ∃ node : Node, tb.heap[p]? = some node ∧ hashFunction node.token = b
  /-- Every token received has a node, and only these. -/
  tokens : ∀ t, (∃ (p : Ptr) (node : Node), tb.heap[p]? = some node ∧ node.token = t) ↔ ∃ v, (t, v) ∈ pairs
  /-- No token has two. -/
  unique : ∀ (p q : Ptr) (node node' : Node), tb.heap[p]? = some node → tb.heap[q]? = some node' →
    node.token = node'.token → p = q
  /-- The node holds the values received with its token, in the order of arrival. -/
  values : ∀ (p : Ptr) (node : Node), tb.heap[p]? = some node →
    node.values.take node.count = (valuesOf node.token pairs).map some ∧
    node.count = (valuesOf node.token pairs).length ∧ node.count ≤ node.capacity ∧ node.values.length = node.capacity
  sum : (tb.heap.map Node.count).sum = pairs.length

theorem TableInv.grouped {tb : Table} {pairs : List Pair} (h : TableInv tb pairs (pairs.map Prod.fst)) :
    Grouped tb pairs where
  chains := by
    refine ⟨h.buckets, fun b hb => ⟨_, h.chains b hb, ?_, fun p => mem_bucketNodes⟩⟩
    exact (List.nodup_reverse.mpr List.nodup_range).filter _
  tokens t := by
    have ht := h.tokens t
    simp only [List.mem_map, Prod.exists, exists_and_right, exists_eq_right] at ht
    rw [← ht]
    constructor
    · rintro ⟨p, node, hp, hn⟩
      exact ⟨node, List.mem_of_getElem? hp, hn⟩
    · rintro ⟨node, hm, hn⟩
      obtain ⟨p, hp⟩ := List.getElem?_of_mem hm
      exact ⟨p, node, hp, hn⟩
  unique p q node node' hp hq ht := by
    obtain ⟨hp', hpt⟩ := List.getElem?_eq_some_iff.mp hp
    obtain ⟨hq', hqt⟩ := List.getElem?_eq_some_iff.mp hq
    refine (@List.Nodup.getElem_inj_iff _ _ h.nodup p (by simpa using hp') q (by simpa using hq')).mp ?_
    simpa [hpt, hqt] using ht
  values p node hp := by
    have hh := h.holds node (List.mem_of_getElem? hp)
    exact ⟨hh.values, hh.count, hh.le, hh.slots⟩
  sum := h.sum

theorem tableInv_empty : TableInv Table.empty [] [] where
  buckets := List.length_replicate
  chains b hb := by
    have : (Table.empty.buckets[b]?).join = none := by
      simp only [Table.empty, List.getElem?_replicate]
      split <;> rfl
    rw [this]
    exact .nil
  nodup := List.nodup_nil
  tokens t := Iff.rfl
  holds node hm := absurd hm (List.not_mem_nil)
  sum := rfl

/-- **Grouping.** On the stream of any sequence of pairs, cut as it may be, the collection loop ends, and leaves the
table of exactly these pairs unless `realloc` has refused an array of more than `PTRDIFF_MAX` bytes. -/
theorem grouping (msgs : List Msg) (n : Nat) (hn : msgs.length < n) :
    (collect n Table.empty 0).Wp StreamEnv (fun r _ =>
      (∃ tb, r = .collected tb msgs.length ∧ Grouped tb (msgs.map fun m => (m.token.bytes, m.value.bytes))) ∨
      (r = .failed ∧ 2 ^ 58 ≤ msgs.length)) (msgs.flatMap Msg.wire) := by
  refine (collect_spec msgs n Table.empty [] hn tableInv_empty).mono ?_
  rintro r s' (⟨tb, rfl, h⟩ | ⟨rfl, h⟩)
  · exact .inl ⟨tb, by simp, by simpa using h.grouped⟩
  · exact .inr ⟨rfl, by simpa using h⟩

/-- Three pairs with two tokens, one of them a byte above 127. -/
def threePairs : List Msg :=
  [⟨⟨[200], by decide, by decide⟩, ⟨[1], by decide⟩⟩, ⟨.a, .empty⟩,
    ⟨⟨[200], by decide, by decide⟩, ⟨[2, 3], by decide⟩⟩]

theorem grouping_threePairs :
    ∃ s' tb, Prog.Runs StreamEnv (threePairs.flatMap Msg.wire) (collect 4 Table.empty 0) s' (.collected tb 3) ∧
      Grouped tb (threePairs.map fun m => (m.token.bytes, m.value.bytes)) := by
  obtain ⟨s', r, hr, ⟨tb, rfl, h⟩ | ⟨-, h⟩⟩ := (grouping threePairs 4 (by decide)).ends
  · exact ⟨s', tb, hr, h⟩
  · exact absurd h (by decide)

end MrLib
