import Mathlib.Data.List.Dedup
import MrLib.Process.Controller
import MrLib.Process.Reducer
import MrLib.Process.Simulation
import MrLib.Reducer.Grouping

/-!
# The reducer process is a pool

`reducerContract`: the controller collects the pairs before it has workers, holds the nodes of the table from then on,
and pushes or releases each of them, whatever fails; a worker that has called the user's reducer releases its node.
`TableInv.calls` says which calls the nodes of a table stand for.
-/

namespace MrLib

open Conc Conc.WorkPool

/-! ## The nodes of the table -/

/-- The call of the user's reducer for a node. -/
def reducerJob (heap : Heap Ptr) (p : Ptr) : Sys :=
  match heap p with
  | some node => .reducer node.token node.arguments
  | none => .stuck

/-- The buckets `hds` start chains through the nodes `pss`, which `fuel` is enough to walk along. -/
structure Chains (heap : List Node) (fuel : Nat) (hds : List (Option Ptr)) (pss : List (List Ptr)) : Prop where
  chains : List.Forall₂ (Chain heap) hds pss
  fuel : ∀ ps ∈ pss, ps.length ≤ fuel

theorem Chains.tail {heap : List Node} {fuel : Nat} {hd : Option Ptr} {hds : List (Option Ptr)} {ps : List Ptr}
    {pss : List (List Ptr)} (h : Chains heap fuel (hd :: hds) (ps :: pss)) : Chains heap fuel hds pss :=
  ⟨(List.forall₂_cons.mp h.chains).2, fun qs hqs => h.fuel qs (List.mem_cons_of_mem _ hqs)⟩

theorem chainNodes_eq {heap : List Node} : ∀ {fuel : Nat} {hd : Option Ptr} {ps : List Ptr}, Chain heap hd ps →
    ps.length ≤ fuel → chainNodes heap fuel hd = ps
  | fuel, _, _, .nil, _ => by cases fuel <;> rfl
  | 0, _, _, .cons _ _, h => absurd h (by simp)
  | fuel + 1, _, _, .cons hp hc, h => by
    rw [chainNodes, hp]
    exact congrArg _ (chainNodes_eq hc (by simpa using h))

theorem Chains.nodes {heap : List Node} {fuel : Nat} : ∀ {hds : List (Option Ptr)} {pss : List (List Ptr)},
    Chains heap fuel hds pss → hds.flatMap (chainNodes heap fuel) = pss.flatten
  | [], [], _ => rfl
  | hd :: hds, ps :: pss, h => by
    rw [List.flatMap_cons, List.flatten_cons, h.tail.nodes,
      chainNodes_eq (List.forall₂_cons.mp h.chains).1 (h.fuel ps List.mem_cons_self)]
  | [], _ :: _, h => by cases h.chains
  | _ :: _, [], h => by cases h.chains

section

variable {tb : Table} {pairs : List Pair} {tokens : List Bytes}

/-- The buckets of the table. -/
theorem TableInv.buckets_chains (h : TableInv tb pairs tokens) :
    Chains tb.heap tb.heap.length tb.buckets ((List.range hashTableSize).map (bucketNodes tb.heap)) where
  chains := by
    refine List.forall₂_iff_get.mpr ⟨by simp [h.buckets], fun b hb hb' => ?_⟩
    have hlt : b < hashTableSize := h.buckets ▸ hb
    have hc := h.chains b hlt
    rw [List.getElem?_eq_getElem hb] at hc
    simpa using hc
  fuel ps hps := by
    obtain ⟨b, -, rfl⟩ := List.mem_map.mp hps
    exact length_bucketNodes_le tb.heap b

theorem TableInv.nodes_eq (h : TableInv tb pairs tokens) :
    tb.nodes = ((List.range hashTableSize).map (bucketNodes tb.heap)).flatten := h.buckets_chains.nodes

/-- Every node is in one bucket. -/
theorem TableInv.nodes_perm (h : TableInv tb pairs tokens) : tb.nodes.Perm (List.range tb.heap.length) := by
  rw [h.nodes_eq]
  refine (List.perm_ext_iff_of_nodup ?_ List.nodup_range).mpr fun p => ?_
  · refine List.nodup_flatten.mpr ⟨fun ps hps => ?_, List.pairwise_map.mpr ?_⟩
    · obtain ⟨b, -, rfl⟩ := List.mem_map.mp hps
      exact (List.nodup_reverse.mpr List.nodup_range).filter _
    · refine List.nodup_range.imp fun {b c} hbc p hp hp' => hbc ?_
      obtain ⟨node, hnode, rfl⟩ := mem_bucketNodes.mp hp
      obtain ⟨node', hnode', rfl⟩ := mem_bucketNodes.mp hp'
      rw [hnode] at hnode'
      cases hnode'
      rfl
  · simp only [List.mem_flatten, List.mem_map, List.mem_range, exists_exists_and_eq_and, mem_bucketNodes]
    constructor
    · rintro ⟨b, -, node, hp, -⟩
      exact (List.getElem?_eq_some_iff.mp hp).1
    · intro hp
      exact ⟨_, hashFunction_lt _, _, List.getElem?_eq_getElem hp, rfl⟩

theorem TableInv.nodes_nodup (h : TableInv tb pairs tokens) : tb.nodes.Nodup :=
  h.nodes_perm.nodup_iff.mpr List.nodup_range

/-- The user's reducer gets the values received with the token. -/
theorem TableInv.job_eq (h : TableInv tb pairs tokens) {p : Ptr} {node : Node} (hp : tb.heap[p]? = some node) :
    reducerJob (fun p => tb.heap[p]?) p = .reducer node.token (valuesOf node.token pairs) := by
  have hv := (h.holds node (List.mem_of_getElem? hp)).values
  simp only [reducerJob, hp, Node.arguments, hv, List.map_map, Sys.reducer.injEq, true_and]
  exact List.map_id'' (fun _ => rfl) _

/-- **The nodes stand for one call for every token received, with all the values received with it.** -/
theorem TableInv.calls (h : TableInv tb pairs (pairs.map Prod.fst)) :
    (tb.nodes.map (reducerJob fun p => tb.heap[p]?)).Perm
      ((pairs.map Prod.fst).dedup.map fun t => .reducer t (valuesOf t pairs)) := by
  have heap : (List.range tb.heap.length).map (reducerJob fun p => tb.heap[p]?) =
      (tb.heap.map Node.token).map fun t => .reducer t (valuesOf t pairs) := by
    refine List.ext_getElem (by simp) fun p hp _ => ?_
    have hlt : p < tb.heap.length := by simpa using hp
    simp only [List.getElem_map, List.getElem_range]
    exact h.job_eq (List.getElem?_eq_getElem hlt)
  have tokens : (tb.heap.map Node.token).Perm (pairs.map Prod.fst).dedup :=
    (List.perm_ext_iff_of_nodup h.nodup (List.nodup_dedup _)).mpr fun t => by rw [h.tokens, List.mem_dedup]
  exact (h.nodes_perm.map _).trans (heap ▸ tokens.map _)

end

/-! ## The collection -/

section

variable {α : Type} {Q : α → Unit → Prop}

/-- Any sequential code, with any result. -/
theorem wp_any {β : Type} {p : IoProg β} {k : β → IoProg α} (h : ∀ b, (k b).Wp anyAnswer Q ()) :
    (p >>= k).Wp anyAnswer Q () :=
  (Prog.wp_bind _ _ _).mpr ((wp_anyAnswer p).mono fun b _ _ => h b)

/-- No array of more than `PTRDIFF_MAX` bytes is allocated. -/
theorem wp_any_realloc {n : Nat} {k : Bool → IoProg α} (hok : n ≤ ptrdiffMax → (k true).Wp anyAnswer Q ())
    (hfail : (k false).Wp anyAnswer Q ()) : (allocates (.realloc n) >>= k).Wp anyAnswer Q () := by
  refine ⟨⟨.sys .fail, (), .inr rfl⟩, fun r _ he => ?_⟩
  cases r with
  | int r => exact he.elim
  | sys r =>
    rcases he with he | he
    · cases he
    · cases r with
      | fail => exact hfail
      | ok => exact hok (of_decide_eq_true he)
      | _ => cases he

theorem addValueToToken_any {node : Node} {vs : List Bytes} (h : Holds node vs) (value : Bytes) :
    (addValueToToken node value).Wp anyAnswer (fun r _ => ∀ node', r = some node' →
      Extends node node' ∧ Holds node' (vs ++ [value])) () := by
  unfold addValueToToken
  split
  · rename_i hc
    refine wp_any_realloc (fun hs => ?_) fun node' hr => by cases hr
    obtain ⟨hg, hlt⟩ := h.grow hc hs
    intro node' hr
    cases hr
    exact ⟨⟨rfl, rfl, rfl⟩, hg.append hlt value⟩
  · rename_i hc
    intro node' hr
    cases hr
    have hle := h.le
    exact ⟨⟨rfl, rfl, rfl⟩, h.append (by omega) value⟩

theorem findOrCreateToken_any {tb : Table} {pairs : List Pair} (h : TableInv tb pairs (pairs.map Prod.fst))
    (token : Bytes) : (findOrCreateToken tb token).Wp anyAnswer (fun r _ => ∀ p tb', r = some (p, tb') →
      TableInv tb' pairs (token :: pairs.map Prod.fst) ∧ ∃ node, tb'.heap[p]? = some node ∧ node.token = token) () := by
  unfold findOrCreateToken
  rcases h.search token with ⟨p, node, hw, hp, hnt, hm⟩ | ⟨hw, hn⟩
  · rw [hw]
    intro q tb' hr
    cases hr
    exact ⟨h.found hm, node, hp, hnt⟩
  · rw [hw]
    refine wp_any fun b => ?_
    cases b with
    | false => exact fun q tb' hr => by cases hr
    | true =>
      refine wp_any fun b => ?_
      cases b with
      | false => exact fun q tb' hr => by cases hr
      | true =>
        intro q tb' hr
        cases hr
        exact ⟨h.create hn (valuesOf_eq_nil hn), getElem?_create tb token⟩

/-- **One pair of the collection**, whatever the calls return: the pair is in the table unless the collection fails. -/
theorem collectPair_any {tb : Table} {pairs : List Pair} (h : TableInv tb pairs (pairs.map Prod.fst))
    (token : Option Bytes) (value : Bytes) :
    (collectPair tb token value).Wp anyAnswer (fun r _ => ∀ tb', r = some tb' →
      TableInv tb' (pairs ++ [(cstr (token.getD []), value)])
        ((pairs ++ [(cstr (token.getD []), value)]).map Prod.fst)) () := by
  unfold collectPair
  cases token with
  | none => exact wp_any fun _ tb' hr => by cases hr
  | some block =>
    rw [Prog.wp_bind]
    refine (findOrCreateToken_any h (cstr block)).mono fun r _ hr => ?_
    cases r with
    | none => exact wp_any fun _ tb' hr => by cases hr
    | some x =>
      obtain ⟨p, tb'⟩ := x
      obtain ⟨hinv, node, hp, ht⟩ := hr p tb' rfl
      simp only [hp]
      rw [Prog.wp_bind]
      refine (addValueToToken_any (hinv.holds node (List.mem_of_getElem? hp)) value).mono fun r _ hr => ?_
      cases r with
      | none => exact wp_any fun _ tb' hr => by cases hr
      | some node' =>
        obtain ⟨he, hv⟩ := hr node' rfl
        intro tb'' heq
        cases heq
        exact hinv.pair hp ht he hv

end

/-! ## The controller -/

/-- The controller has collected the pairs into `tb`, and all threads can see the nodes. -/
structure Gathered (tb : Table) (v : Ctl Ptr × Seen Ptr) : Prop where
  inv : TableInv tb v.2.pairs (v.2.pairs.map Prod.fst)
  heap : v.2.heap = fun p => tb.heap[p]?
  born : v.1.born = tb.nodes

/-- Between `v` and `v'` the controller has given the nodes up that it held, except for `held`. -/
structure Spent (held : List Ptr) (v v' : Ctl Ptr × Seen Ptr) : Prop where
  held : v'.1.held = held
  born : v'.1.born = v.1.born
  seen : v'.2 = v.2

theorem Spent.trans {held held' : List Ptr} {v v' v'' : Ctl Ptr × Seen Ptr} (h : Spent held v v')
    (h' : Spent held' v' v'') : Spent held' v v'' := ⟨h'.held, h'.born.trans h.born, h'.seen.trans h.seen⟩

/-- It holds the nodes `held`, and pushes. -/
structure Pushing (P : Spec) (held : List Ptr) (v : Ctl Ptr × Seen Ptr) : Prop where
  created : v.1.created = P.workers
  shut : v.1.shut = false
  refused : v.1.refused = false
  dropped : v.1.dropped = []
  held : v.1.held = held

/-- A return of the controller: no node is left with it. -/
structure ReducerExit (P : Spec) (code : Int) (v : Ctl Ptr × Seen Ptr) : Prop where
  held : v.1.held = []
  nodup : v.1.born.Nodup
  nodes : ∀ p, v.2.heap p ≠ none → p ∈ v.1.born
  success : code = 0 → Returned P v.1 ∧ v.1.refused = false ∧ ∃ tb, Gathered tb v

/-- The controller in the collection, with the table `tb`. -/
structure Collecting (tb : Table) (v : Ctl Ptr × Seen Ptr) : Prop where
  ctl : v.1 = .start
  heap : v.2.heap = fun _ => none
  inv : TableInv tb v.2.pairs (v.2.pairs.map Prod.fst)

/-- The controller at the head of its loop. -/
def reducerCtl : ReducerPhase → Ctl Ptr × Seen Ptr → Prop
  | .collect tb, v => Collecting tb v
  | .work, _ => False

/-- A worker at the head of its loop. -/
def reducerWk : ReducerPhase → Wk Ptr × Heap Ptr → Prop
  | .work, v => v.1 = .idle
  | .collect _, _ => False

section

variable {P : Spec} {heap : List Node} {α : Type} {v : Ctl Ptr × Seen Ptr}

theorem wp_cleanupTokenNode {Q : Except Int α → Ctl Ptr × Seen Ptr → Prop} {p : Ptr} {rest : List Ptr}
    {k : Unit → Th Ptr α} (hh : v.1.held = p :: rest)
    (h : (k ()).run.Wp (ctlEnv P) Q ({ v.1 with held := rest, dropped := v.1.dropped ++ [p] }, v.2)) :
    (cleanupTokenNode p >>= k).run.Wp (ctlEnv P) Q v :=
  wp_th_bind (wp_load_held (by rw [hh]; exact List.mem_cons_self) (wp_note_released (k := pure) hh h))

theorem cleanupChain_ctl : ∀ {fuel : Nat} {hd : Option Ptr} {ps rest : List Ptr} {v : Ctl Ptr × Seen Ptr},
    Chain heap hd ps → ps.length ≤ fuel → v.2.heap = (fun p => heap[p]?) → v.1.held = ps ++ rest →
    (cleanupChain fuel hd).run.Wp (ctlEnv P) (fun x v' => x = .ok () ∧ Spent rest v v') v
  | fuel, _, _, _, v, .nil, _, _, hh => by
    cases fuel <;> exact ⟨rfl, hh, rfl, rfl⟩
  | 0, _, _, _, _, .cons _ _, h, _, _ => absurd h (by simp)
  | fuel + 1, _, _, rest, v, @Chain.cons _ p node ps hp hc, h, hheap, hh => by
    rw [cleanupChain]
    refine wp_load_held (by rw [hh]; exact List.mem_cons_self) ?_
    rw [hheap]
    simp only [hp]
    refine wp_cleanupTokenNode hh (Prog.Wp.mono (fun x v' hx => ?_) (cleanupChain_ctl hc (by simpa using h) hheap rfl))
    exact ⟨hx.1, hx.2.held, hx.2.born, hx.2.seen⟩

theorem cleanupBuckets_ctl {fuel : Nat} : ∀ {hds : List (Option Ptr)} {pss : List (List Ptr)}
    {v : Ctl Ptr × Seen Ptr}, Chains heap fuel hds pss → v.2.heap = (fun p => heap[p]?) → v.1.held = pss.flatten →
    (cleanupBuckets fuel hds).run.Wp (ctlEnv P) (fun x v' => x = .ok () ∧ Spent [] v v') v
  | [], [], _, _, _, hh => ⟨rfl, hh, rfl, rfl⟩
  | hd :: hds, ps :: pss, v, h, hheap, hh => by
    rw [cleanupBuckets]
    refine wp_th_bind ((cleanupChain_ctl (List.forall₂_cons.mp h.chains).1 (h.fuel ps List.mem_cons_self) hheap
      hh).mono ?_)
    rintro _ v' ⟨rfl, hs⟩
    refine (cleanupBuckets_ctl h.tail (by rw [hs.seen]; exact hheap) hs.held).mono fun x v'' hx => ?_
    exact ⟨hx.1, hs.trans hx.2⟩
  | [], _ :: _, _, h, _, _ => by cases h.chains
  | _ :: _, [], _, h, _, _ => by cases h.chains

theorem cleanupHashTable_ctl {tb : Table} (h : Gathered tb v) (hh : v.1.held = tb.nodes) :
    (cleanupHashTable tb).run.Wp (ctlEnv P) (fun x v' => x = .ok () ∧ Spent [] v v') v :=
  cleanupBuckets_ctl h.inv.buckets_chains h.heap (hh.trans h.inv.nodes_eq)

/-- What a failing push leads to: the nodes the controller still holds are released. -/
theorem pushChain_ctl {args : PoolArgs} {fuel : Nat} {hds : List (Option Ptr)} {pss : List (List Ptr)}
    (hcs : Chains heap fuel hds pss) : ∀ {n : Nat} {hd : Option Ptr} {ps : List Ptr} {v : Ctl Ptr × Seen Ptr},
    Chain heap hd ps → ps.length ≤ n → n ≤ fuel → v.2.heap = (fun p => heap[p]?) →
    Pushing P (ps ++ pss.flatten) v →
    (pushChain args fuel hds n hd).run.Wp (ctlEnv P)
      (Leaves (fun v' => Pushing P pss.flatten v' ∧ Spent pss.flatten v v')
        fun c v' => c = exitFailure ∧ Spent [] v v') v
  | n, _, _, v, .nil, _, _, _, hv => by
    cases n <;> exact ⟨hv, hv.held, rfl, rfl⟩
  | 0, _, _, _, .cons _ _, h, _, _, _ => absurd h (by simp)
  | n + 1, _, _, v, @Chain.cons _ p node ps hp hc, h, hn, hheap, hv => by
    have hlen : ps.length ≤ n := by simpa using h
    rw [pushChain]
    refine wp_load_held (by rw [hv.held]; exact List.mem_cons_self) ?_
    rw [hheap]
    simp only [hp]
    refine wp_push hv.shut hv.created (fun _ => hv.dropped) hv.held ?_ ?_
    · refine wp_exitCheck (fun _ => ?_) fun h => absurd h (by decide)
      refine Prog.Wp.mono (fun x v' hx => ?_)
        (pushChain_ctl hcs hc hlen (by omega) hheap ⟨hv.created, hv.shut, hv.refused, hv.dropped, rfl⟩)
      cases x with
      | ok _ => exact ⟨hx.1, hx.2.held, hx.2.born, hx.2.seen⟩
      | error c => exact ⟨hx.1, hx.2.held, hx.2.born, hx.2.seen⟩
    · refine wp_exitCheck (fun h => absurd rfl h) fun _ => wp_th_bind ?_
      refine wp_io fun _ => wp_close fun r _ => wp_th_bind ((joinAll_ctl P args.threads 0 _).mono ?_)
      rintro _ v1 ⟨rfl, hj⟩
      have hheld : v1.1.held = p :: (ps ++ pss.flatten) := by
        rw [hj.same]
        exact hv.held
      refine wp_cleanupTokenNode hheld (wp_th_bind ?_)
      have hseen : v1.2 = v.2 := hj.fields.2.2.2.2.2
      refine Prog.Wp.mono ?_ (cleanupChain_ctl hc (by omega) (by rw [hseen]; exact hheap) rfl)
      rintro _ v2 ⟨rfl, hs⟩
      refine (cleanupBuckets_ctl hcs (by rw [hs.seen, hseen]; exact hheap) hs.held).mono ?_
      rintro _ v3 ⟨rfl, hs'⟩
      refine wp_returns ⟨rfl, hs'.held, ?_, ?_⟩
      · rw [hs'.born, hs.born, hj.same]
      · rw [hs'.seen, hs.seen, hseen]

theorem pushBuckets_ctl {args : PoolArgs} {fuel : Nat} : ∀ {hds : List (Option Ptr)} {pss : List (List Ptr)}
    {v : Ctl Ptr × Seen Ptr}, Chains heap fuel hds pss → v.2.heap = (fun p => heap[p]?) → Pushing P pss.flatten v →
    (pushBuckets args fuel hds).run.Wp (ctlEnv P)
      (Leaves (fun v' => Pushing P [] v' ∧ Spent [] v v') fun c v' => c = exitFailure ∧ Spent [] v v') v
  | [], [], _, _, _, hv => ⟨hv, hv.held, rfl, rfl⟩
  | hd :: hds, ps :: pss, v, h, hheap, hv => by
    rw [pushBuckets]
    refine wp_th_bind ((pushChain_ctl h.tail (List.forall₂_cons.mp h.chains).1 (h.fuel ps List.mem_cons_self)
      (Nat.le_refl _) hheap hv).mono fun x v' hx => ?_)
    cases x with
    | error c => exact hx
    | ok _ =>
      obtain ⟨hp, hs⟩ := hx
      refine (pushBuckets_ctl h.tail (by rw [hs.seen]; exact hheap) hp).mono fun x v'' hx => ?_
      cases x with
      | ok _ => exact ⟨hx.1, hs.trans hx.2⟩
      | error c => exact ⟨hx.1, hs.trans hx.2⟩
  | [], _ :: _, _, h, _, _ => by cases h.chains
  | _ :: _, [], _, h, _, _ => by cases h.chains

end

section

variable {P : Spec} {tb : Table} {v v' : Ctl Ptr × Seen Ptr}

/-- The nodes in the memory are those of the table. -/
theorem Gathered.nodes (h : Gathered tb v) {p : Ptr} (hp : v.2.heap p ≠ none) : p ∈ v.1.born := by
  rw [h.heap] at hp
  rw [h.born, h.inv.nodes_perm.mem_iff, List.mem_range]
  exact Nat.lt_of_not_le fun hle => hp (List.getElem?_eq_none hle)

theorem Gathered.spent (h : Gathered tb v) {held : List Ptr} (hs : Spent held v v') : Gathered tb v' where
  inv := by
    rw [hs.seen]
    exact h.inv
  heap := by
    rw [hs.seen]
    exact h.heap
  born := hs.born.trans h.born

theorem Gathered.exit (h : Gathered tb v) (hs : Spent [] v v') : ReducerExit P exitFailure v' where
  held := hs.held
  nodup := by
    rw [(h.spent hs).born]
    exact h.inv.nodes_nodup
  nodes _ hp := (h.spent hs).nodes hp
  success h := absurd h (by decide)

/-- The end of a process that has gathered nothing. -/
theorem exit_start (hc : v.1 = .start) (hh : v.2.heap = fun _ => none) : ReducerExit P exitFailure v where
  held := by
    rw [hc]
    rfl
  nodup := by
    rw [hc]
    exact List.nodup_nil
  nodes p hp := absurd (congrFun hh p) hp
  success h := absurd h (by decide)

/-- The table is released, and the process ends. -/
theorem released_ctl {α : Type} {R : Ctl Ptr × Seen Ptr → Prop} (h : Gathered tb v) (hh : v.1.held = tb.nodes) :
    (do cleanupHashTable tb; returns exitFailure : Th Ptr α).run.Wp (ctlEnv P) (Leaves R (ReducerExit P)) v := by
  refine wp_th_bind ((cleanupHashTable_ctl h hh).mono ?_)
  rintro _ v' ⟨rfl, hs⟩
  exact wp_returns (h.exit hs)

end

variable (args : PoolArgs)

theorem reducerMain_ctl : reducerProcessMain.run.Wp (ctlEnv (args.spec false))
    (Ends reducerCtl (ReducerExit (args.spec false))) (.start, .empty) :=
  have hv : Collecting .empty ((.start, .empty) : Ctl Ptr × Seen Ptr) := ⟨rfl, rfl, tableInv_empty⟩
  wp_io fun _ => wp_exitCheck (fun _ => hv) fun _ => wp_returns (exit_start hv.ctl hv.heap)

/-- The table is complete, and the controller holds its nodes. -/
structure Holding (tb : Table) (v : Ctl Ptr × Seen Ptr) : Prop where
  ctl : v.1 = { Ctl.start with held := tb.nodes, born := tb.nodes }
  gathered : Gathered tb v

theorem reducerAllocate_ctl {P : Spec} {tb : Table} {v : Ctl Ptr × Seen Ptr} (hv : Collecting tb v) :
    (reducerAllocate args tb).run.Wp (ctlEnv P) (Leaves (Holding tb) (ReducerExit P)) v := by
  obtain ⟨c, heap0, pairs⟩ := v
  obtain ⟨rfl, -, hinv⟩ := hv
  refine wp_share rfl (wp_note_came ?_)
  -- the controller holds all nodes
  have hG : Gathered tb (({ Ctl.start with held := tb.nodes, born := tb.nodes } : Ctl Ptr),
      (⟨fun p => tb.heap[p]?, pairs⟩ : Seen Ptr)) := ⟨hinv, rfl, rfl⟩
  refine wp_io fun r => wp_exitCheck (fun _ => ?_) fun _ => released_ctl hG rfl
  refine wp_io fun b => wp_ite (fun _ => wp_io fun _ => released_ctl hG rfl) fun _ => ?_
  refine wp_io fun threads => wp_io fun tArgs => ?_
  cases threads with
  | none => exact wp_io fun _ => released_ctl hG rfl
  | some threads =>
    cases tArgs with
    | none => exact wp_io fun _ => released_ctl hG rfl
    | some tArgs => exact ⟨rfl, hG⟩

theorem reducerStart_ctl {tb : Table} {v : Ctl Ptr × Seen Ptr} (threads tArgs : Bytes) (hv : Holding tb v) :
    (reducerStart args tb threads tArgs).run.Wp (ctlEnv (args.spec false))
      (Ends reducerCtl (ReducerExit (args.spec false))) v := by
  obtain ⟨c, seen⟩ := v
  obtain ⟨rfl, hG⟩ := hv
  have hinv := hG.inv
  refine wp_th_bind ((createWorkers_ctl (X := ReducerExit (args.spec false)) args.threads 0 _ rfl (Nat.zero_add _) rfl
    fun v' hf => ?_).mono fun x v' h => ?_)
  · have hG' : Gathered tb v' := hG.spent ⟨hf.held, hf.born, hf.seen⟩
    refine (cleanupHashTable_ctl hG' hf.held).mono ?_
    rintro _ v'' ⟨rfl, hs⟩
    exact hG'.exit hs
  · cases x with
    | error c => exact h
    | ok _ =>
      subst h
      have hp : Pushing (args.spec false) ((List.range hashTableSize).map (bucketNodes tb.heap)).flatten
          (({ Ctl.start with held := tb.nodes, born := tb.nodes, created := args.threads } : Ctl Ptr), seen) :=
        ⟨rfl, rfl, rfl, rfl, hinv.nodes_eq⟩
      have hheap : seen.heap = fun p => tb.heap[p]? := hG.heap
      refine wp_th_bind ((pushBuckets_ctl hinv.buckets_chains hheap hp).mono fun x v1 h => ?_)
      cases x with
      | error c =>
        obtain ⟨rfl, hs⟩ := h
        exact hG.exit ⟨hs.held, hs.born, hs.seen⟩
      | ok _ =>
        obtain ⟨hp1, hs1⟩ := h
        have hG1 : Gathered tb v1 := hG.spent ⟨hs1.held, hs1.born, hs1.seen⟩
        refine wp_close fun r _ => wp_exitCheck (fun _ => ?_) fun _ => wp_io fun _ =>
          wp_returns (hG1.exit ⟨hs1.held, rfl, rfl⟩)
        refine wp_th_bind ((joinWorkers_ctl _ _ args.threads 0 _).mono fun x v2 h => ?_)
        cases x with
        | error c =>
          obtain ⟨rfl, -, hj⟩ := h
          exact hG1.exit ⟨hj.fields.2.1.trans hs1.held, by rw [hj.same], hj.fields.2.2.2.2.2⟩
        | ok _ =>
          obtain ⟨hj, hall⟩ := h
          obtain ⟨hc, hh, hd, hr, -, hseen⟩ := hj.fields
          have hs2 : Spent [] v1 v2 := ⟨hh.trans hs1.held, by rw [hj.same], hseen⟩
          refine wp_io fun r => wp_exitCheck (fun _ => wp_returns ?_) fun _ => wp_returns (hG1.exit hs2)
          have hG2 := hG1.spent hs2
          refine ⟨hs2.held, by rw [hG2.born]; exact hinv.nodes_nodup, fun _ hp => hG2.nodes hp, fun _ =>
            ⟨⟨hc.trans hp1.created, fun i hi => ?_, hs2.held, fun _ => hd.trans hp1.dropped⟩, hr.trans hp1.refused, tb,
              hG2⟩⟩
          exact hall i (Nat.zero_le i) (by rw [Nat.zero_add]; exact hi)

theorem reducerProcess_ctl {tb : Table} {v : Ctl Ptr × Seen Ptr} (hv : Collecting tb v) :
    (reducerProcess args tb).run.Wp (ctlEnv (args.spec false))
      (Ends reducerCtl (ReducerExit (args.spec false))) v := by
  refine wp_th_bind ((reducerAllocate_ctl args hv).mono fun x v' h => ?_)
  cases x with
  | ok blocks => exact reducerStart_ctl args _ _ h
  | error c => exact h

theorem collectionFailed_ctl {v : Ctl Ptr × Seen Ptr} (hc : v.1 = .start) (hh : v.2.heap = fun _ => none) :
    collectionFailed.run.Wp (ctlEnv (args.spec false)) (Ends reducerCtl (ReducerExit (args.spec false))) v :=
  wp_io fun _ => wp_returns (exit_start hc hh)

theorem reducerCollect_ctl {tb : Table} {v : Ctl Ptr × Seen Ptr} (hv : Collecting tb v) :
    (reducerCollect args tb).run.Wp (ctlEnv (args.spec false))
      (Ends reducerCtl (ReducerExit (args.spec false))) v := by
  refine wp_io fun x => ?_
  cases x with
  | pair token value =>
    -- the pair is noted whether or not it gets into the table
    refine wp_note_pair (wp_io_spec (collectPair_any hv.inv token value) fun r hr => ?_)
    cases r with
    | none => exact collectionFailed_ctl args hv.ctl hv.heap
    | some tb' => exact ⟨hv.ctl, hv.heap, hr tb' rfl⟩
  | eof => exact reducerProcess_ctl args hv
  | failed => exact collectionFailed_ctl args hv.ctl hv.heap

/-! ## A worker -/

theorem reducerWorker_wk : ∃ c k, reducerWorker.run = .call (.io c) k ∧
    ∀ h, (Prog.call (.io c) k).Wp (wkEnv (args.spec false) reducerJob) (Ends reducerWk fun _ v => v.1.out = true)
      (.idle, h) := by
  have hrun : ∃ k, reducerWorker.run = .call (.io (.log .info "Reducer worker thread started")) k := run_io_call
  obtain ⟨k, hk⟩ := hrun
  refine ⟨_, k, hk, fun h => ?_⟩
  rw [← hk]
  refine wp_log_wk fun n => ?_
  by_cases hn : n = -1
  · subst hn
    exact wp_exitCheck (fun h => absurd rfl h) fun _ => wp_returns rfl
  · exact wp_exitCheck (fun _ => by simp [stumble, hn]; rfl) fun h => absurd h hn

theorem astray_wk {v : Wk Ptr × Heap Ptr} : (astray : Th Ptr ReducerPhase).run.Wp (wkEnv (args.spec false) reducerJob)
    (Ends reducerWk fun _ v => v.1.out = true) v := wp_stuck_wk fun _ => wp_returns rfl

theorem reducerWork_wk {v : Wk Ptr × Heap Ptr} (hv : v.1 = .idle) :
    reducerWork.run.Wp (wkEnv (args.spec false) reducerJob) (Ends reducerWk fun _ v => v.1.out = true) v := by
  refine wp_pop hv (fun p => ?_) ?_ ?_
  · refine wp_load_own (.inl rfl) ?_
    cases hp : v.2 p with
    | none => exact astray_wk args
    | some node =>
      refine wp_note_called rfl (by simp [reducerJob, hp]) (wp_callUser (fun _ => rfl) fun r => wp_ite (fun _ => ?_) fun _ => ?_)
      · refine wp_note_failed rfl (wp_load_own (.inr (.inr rfl)) (wp_logError_wk (by simp) ?_))
        exact wp_load_own (.inr (.inr rfl)) (wp_note_erred rfl rfl)
      · exact wp_load_own (.inr (.inl rfl)) (wp_note_done rfl rfl)
  · exact wp_note_left (fun _ => rfl) (wp_log_wk fun n => wp_exitCheck (fun _ => wp_returns rfl) fun _ => wp_returns rfl)
  · exact wp_note_left (fun h => absurd h (by decide))
      (wp_log_wk fun n => wp_exitCheck (fun _ => wp_returns rfl) fun _ => wp_returns rfl)

/-- **The reducer process is a pool.** -/
def reducerContract : Contract (reducerCode args) (args.spec false) reducerJob where
  workers_pos := args.threads_pos
  ctlPhase := reducerCtl
  ctlExit := ReducerExit (args.spec false)
  wkPhase := reducerWk
  main := reducerMain_ctl args
  ctlBody ph v h := by
    cases ph with
    | collect tb => exact reducerCollect_ctl args h
    | work => exact h.elim
  worker := reducerWorker_wk args
  wkBody ph v h := by
    cases ph with
    | collect tb => exact h.elim
    | work => exact reducerWork_wk args h

end MrLib
