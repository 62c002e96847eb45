/-
  BubbleStorm.Util.Matrix.CuthillMcKeeProofs — the numbering is a renaming of the nodes.

  The searches only ever append to the order in which the nodes were numbered:
  `numbers n order` is the array they leave, and `Searched` says what one search appends.
  - `optimize_order`: every node is numbered once, and a node that is numbered has all of
    its predecessors numbered by the same search or an earlier one.
  - `inverse_numbers`, `relabel_numbers`: the inverse is the order itself, and relabelling
    keeps each edge with its multiplicity.
  - `optimize_isomorphism`: all of it for every graph, and that the numbers of a component
    whose nodes all reach each other are contiguous.
-/

import BubbleStorm.Util.Matrix.CuthillMcKee
import Mathlib.Logic.Relation
import Mathlib.Data.List.Perm.Subperm

namespace BubbleStorm.Util.Matrix.CuthillMcKee

open List (ext_getElem? foldlM_cons getElem?_eq_getElem getElem?_map getElem?_range getElem_mem idxOf_lt_length_of_mem mem_append_left mem_cons mem_cons_of_mem mem_of_getElem? mem_range nodup_range range replicate)
open Util.Heap (Exn)
open Lib (bind_eq_ok)

variable {α β : Type}

/-! ## Arrays -/

theorem sub_eq {a : List α} {i : Nat} {x : α} (h : a[i]? = some x) : sub a (i : Int) = .ok x := by
  rw [sub, if_neg (by omega)]
  simp [h]

theorem update_eq {a : List α} {i : Nat} (x : α) (h : i < a.length) : update a (i : Int) x = .ok (a.set i x) := by
  rw [update, if_pos (by omega)]
  simp

theorem mapM_eq {f : α → Except Exn β} {g : α → β} {l : List α} (h : ∀ x ∈ l, f x = .ok (g x)) :
    l.mapM f = .ok (l.map g) := by
  induction l with
  | nil => rfl
  | cons x l ih =>
    rw [List.mapM_cons, h x (.head _)]
    show (l.mapM f >>= _) = _
    rw [ih fun y hy => h y (mem_cons_of_mem _ hy)]
    rfl

/-! ## The turned lists -/

def Valid (graph : Graph) : Prop := ∀ l ∈ graph, ∀ x ∈ l, x < graph.length

instance (graph : Graph) : Decidable (Valid graph) :=
  inferInstanceAs (Decidable (∀ l ∈ graph, ∀ x ∈ l, x < graph.length))

/-- `b` is among the neighbours of `a`. -/
def Edge (graph : Graph) (a b : Nat) : Prop := ∃ l, graph[a]? = some l ∧ b ∈ l

theorem Edge.lt {graph : Graph} {a b : Nat} (h : Edge graph a b) : a < graph.length := by
  obtain ⟨l, hl, -⟩ := h
  exact (List.getElem?_eq_some_iff.mp hl).1

theorem Edge.lt' {graph : Graph} (V : Valid graph) {a b : Nat} (h : Edge graph a b) : b < graph.length := by
  obtain ⟨l, hl, hb⟩ := h
  exact V l (mem_of_getElem? hl) b hb

theorem push_edge {s : Graph} {a b : Nat} (h : b < s.length) :
    ∃ s', push a s b = .ok s' ∧ s'.length = s.length ∧ ∀ c x, Edge s' c x ↔ Edge s c x ∨ c = b ∧ x = a := by
  have hl := getElem?_eq_getElem h
  refine ⟨s.set b (a :: s[b]), ?_, List.length_set, ?_⟩
  · simp only [push, sub_eq hl]
    exact update_eq _ h
  · intro c x
    unfold Edge
    by_cases hc : c = b
    · subst hc
      rw [List.getElem?_set_self h, hl]
      simp [or_comm]
    · rw [List.getElem?_set_ne (Ne.symm hc)]
      simp [hc]

theorem pushes_edge (s : Graph) (a : Nat) (edges : List Nat) (h : ∀ b ∈ edges, b < s.length) :
    ∃ s', edges.foldlM (push a) s = .ok s' ∧ s'.length = s.length ∧ ∀ c x, Edge s' c x ↔ Edge s c x ∨ c ∈ edges ∧ x = a := by
  induction edges generalizing s with
  | nil => exact ⟨s, rfl, rfl, by simp⟩
  | cons b edges ih =>
    obtain ⟨s₁, h₁, hl₁, he₁⟩ := push_edge (a := a) (h b (.head _))
    obtain ⟨s₂, h₂, hl₂, he₂⟩ := ih (s := s₁) fun c hc => by rw [hl₁]; exact h c (mem_cons_of_mem _ hc)
    refine ⟨s₂, ?_, hl₂.trans hl₁, ?_⟩
    · rw [foldlM_cons, h₁]
      exact h₂
    · intro c x
      rw [he₂, he₁, mem_cons]
      tauto

theorem add_edge {graph s : Graph} (V : Valid graph) {a : Nat} (ha : a < graph.length) (hs : s.length = graph.length) :
    ∃ s', add graph a s = .ok s' ∧ s'.length = graph.length ∧ ∀ c x, Edge s' c x ↔ Edge s c x ∨ Edge graph a c ∧ x = a := by
  have hl := getElem?_eq_getElem ha
  obtain ⟨s', h, hlen, he⟩ := pushes_edge s a graph[a] fun b hb => by
    rw [hs]
    exact V _ (getElem_mem _) b hb
  refine ⟨s', ?_, hlen.trans hs, ?_⟩
  · simp only [add, sub_eq hl]
    exact h
  · intro c x
    rw [he]
    simp [Edge, hl]

/-- Each list holds the predecessors of its node. -/
theorem sortedGraph_edge {graph : Graph} (V : Valid graph) {nodes : List Nat} (hn : ∀ x ∈ nodes, x < graph.length) :
    ∃ s, sortedGraph graph nodes = .ok s ∧ s.length = graph.length ∧ ∀ c x, Edge s c x ↔ x ∈ nodes ∧ Edge graph x c := by
  induction nodes with
  | nil =>
    refine ⟨replicate graph.length [], rfl, by simp, ?_⟩
    intro c x
    constructor
    · intro ⟨l, hl, hx⟩
      rw [List.getElem?_replicate] at hl
      split at hl
      · cases hl
        cases hx
      · cases hl
    · intro ⟨hx, _⟩
      cases hx
  | cons a nodes ih =>
    obtain ⟨s, h, hl, he⟩ := ih fun x hx => hn x (mem_cons_of_mem _ hx)
    obtain ⟨s', h', hl', he'⟩ := add_edge V (hn a (.head _)) hl
    refine ⟨s', ?_, hl', ?_⟩
    · unfold sortedGraph at h ⊢
      rw [List.foldrM_cons, h]
      exact h'
    · intro c x
      rw [he', he, mem_cons]
      constructor
      · rintro (⟨hx, hxc⟩ | ⟨hac, rfl⟩)
        · exact ⟨.inr hx, hxc⟩
        · exact ⟨.inl rfl, hac⟩
      · rintro ⟨rfl | hx, hxc⟩
        · exact .inr ⟨hxc, rfl⟩
        · exact .inl ⟨hx, hxc⟩

/-! ## The searches -/

/-- The array when the nodes were numbered in this order. -/
def numbers (n : Nat) (order : List Nat) : List Int :=
  (range n).map fun k => if k ∈ order then (order.idxOf k : Int) else -1

@[simp] theorem numbers_length (n : Nat) (order : List Nat) : (numbers n order).length = n := by simp [numbers]

theorem numbers_get {n : Nat} {order : List Nat} {k : Nat} (h : k < n) :
    (numbers n order)[k]? = some (if k ∈ order then (order.idxOf k : Int) else -1) := by
  simp [numbers, h]

theorem numbers_nil (n : Nat) : numbers n [] = replicate n (-1) := by
  simp [numbers, List.map_const']

theorem numbers_set {n : Nat} {order : List Nat} {k : Nat} (hk : k < n) (hko : k ∉ order) :
    (numbers n order).set k (order.length : Int) = numbers n (order ++ [k]) := by
  apply ext_getElem?
  intro j
  by_cases hj : j < n
  · rw [numbers_get hj]
    by_cases hjk : j = k
    · subst hjk
      rw [List.getElem?_set_self (by simpa using hj)]
      simp [List.idxOf_append_of_notMem hko]
    · rw [List.getElem?_set_ne (Ne.symm hjk), numbers_get hj]
      by_cases hjo : j ∈ order
      · simp [hjo, List.idxOf_append_of_mem hjo]
      · simp [hjo, hjk]
  · rw [List.getElem?_eq_none (by simpa using hj), List.getElem?_eq_none (by simpa using hj)]

/-- What a search with the nodes `queue` in its queue appends to `order`. -/
structure Searched (s : Graph) (order queue new : List Nat) : Prop where
  nodup : (order ++ new).Nodup
  bound : ∀ x ∈ new, x < s.length
  found : ∀ x ∈ new, ∃ q ∈ queue, Relation.ReflTransGen (Edge s) q x
  queued : ∀ q ∈ queue, q ∈ order ++ new
  closed : ∀ x ∈ order ++ new, ∀ c, Edge s x c → c ∈ order ++ new

theorem Searched.skip {s : Graph} {order queue new : List Nat} {node : Nat} (S : Searched s order queue new)
    (h : node ∈ order) : Searched s order (node :: queue) new where
  nodup := S.nodup
  bound := S.bound
  found := by
    intro x hx
    obtain ⟨q, hq, hr⟩ := S.found x hx
    exact ⟨q, mem_cons_of_mem _ hq, hr⟩
  queued := by
    intro q hq
    rcases List.mem_cons.mp hq with rfl | hq
    · exact mem_append_left _ h
    · exact S.queued q hq
  closed := S.closed

/-- A node is numbered, and its children wait behind the queue. -/
theorem Searched.visit {s : Graph} {order queue children new : List Nat} {node : Nat}
    (S : Searched s (order ++ [node]) (queue ++ children) new) (hnode : node < s.length)
    (hedge : ∀ c ∈ children, Edge s node c) : Searched s order (node :: queue) (node :: new) where
  nodup := by simpa using S.nodup
  bound := by
    intro x hx
    rcases List.mem_cons.mp hx with rfl | hx
    · exact hnode
    · exact S.bound x hx
  found := by
    intro x hx
    rcases List.mem_cons.mp hx with rfl | hx
    · exact ⟨x, .head _, .refl⟩
    obtain ⟨q, hq, hr⟩ := S.found x hx
    rcases List.mem_append.mp hq with hq | hq
    · exact ⟨q, mem_cons_of_mem _ hq, hr⟩
    · exact ⟨node, .head _, .head (hedge q hq) hr⟩
  queued := by
    intro q hq
    rcases List.mem_cons.mp hq with rfl | hq
    · simp
    · have := S.queued q (mem_append_left _ hq)
      simpa using this
  closed := by
    intro x hx c hxc
    have := S.closed x (by simpa using hx) c hxc
    simpa using this

theorem bfs_nil (s : Graph) (permutation : List Int) (i : Nat) : bfs s permutation i [] = .ok (permutation, i) := by
  rw [bfs]

theorem bfs_skip {s : Graph} {permutation : List Int} {i node : Nat} {queue : List Nat} {number : Int}
    (h : permutation[node]? = some number) (hn : number ≠ -1) :
    bfs s permutation i (node :: queue) = bfs s permutation i queue := by
  rw [bfs]
  split
  · rename_i h'
    rw [h] at h'
    cases h'
  · rename_i number' h'
    rw [h] at h'
    cases h'
    rw [dif_pos hn]

theorem bfs_number {s : Graph} {permutation : List Int} {i node : Nat} {queue children : List Nat}
    (h : permutation[node]? = some (-1)) (hs : s[node]? = some children) :
    bfs s permutation i (node :: queue) = bfs s (permutation.set node i) (i + 1) (queue ++ children) := by
  rw [bfs]
  split
  · rename_i h'
    rw [h] at h'
    cases h'
  · rename_i number' h'
    rw [h] at h'
    cases h'
    rw [dif_neg (fun hn => hn rfl), hs]

theorem bfs_searched {s : Graph} (V : Valid s) (permutation : List Int) (i : Nat) (queue order : List Nat)
    (hp : permutation = numbers s.length order) (hi : i = order.length) (hn : order.Nodup) (hq : ∀ q ∈ queue, q < s.length)
    (hc : ∀ x ∈ order, ∀ c, Edge s x c → c ∈ order ∨ c ∈ queue) :
    ∃ new, bfs s permutation i queue = .ok (numbers s.length (order ++ new), (order ++ new).length) ∧
      Searched s order queue new := by
  induction permutation, i, queue using bfs.induct s generalizing order with
  | case1 permutation i =>
    subst hp hi
    refine ⟨[], by rw [bfs_nil, List.append_nil], by simpa using hn, by simp, by simp, by simp, ?_⟩
    intro x hx c hxc
    rw [List.append_nil] at hx ⊢
    simpa using hc x hx c hxc
  | case2 permutation i node queue h =>
    have hnode := hq node (.head _)
    rw [hp, numbers_get hnode] at h
    cases h
  | case3 permutation i node queue number h hnum ih =>
    have hnode := hq node (.head _)
    have hmem : node ∈ order := by
      by_contra hno
      rw [hp, numbers_get hnode, if_neg hno] at h
      cases h
      exact hnum rfl
    obtain ⟨new, hb, S⟩ := ih order hp hi hn (fun q hq' => hq q (mem_cons_of_mem _ hq')) fun x hx c hxc => by
      rcases hc x hx c hxc with h | h
      · exact .inl h
      · rcases List.mem_cons.mp h with rfl | h
        · exact .inl hmem
        · exact .inr h
    exact ⟨new, (bfs_skip h hnum).trans hb, S.skip hmem⟩
  | case4 permutation i node queue number h hnum hs =>
    have hnode := hq node (.head _)
    rw [getElem?_eq_getElem hnode] at hs
    cases hs
  | case5 permutation i node queue number h hnum children hs ih =>
    have hnode := hq node (.head _)
    have hno : node ∉ order := by
      intro hm
      rw [hp, numbers_get hnode, if_pos hm] at h
      cases h
      exact hnum (by omega)
    have hedge : ∀ c, Edge s node c ↔ c ∈ children := by
      intro c
      simp [Edge, hs]
    obtain ⟨new, hb, S⟩ := ih (order ++ [node]) (by rw [hp, hi, numbers_set hnode hno]) (by simp [hi])
      (by
        rw [List.nodup_append]
        exact ⟨hn, by simp, fun a ha b hb => by rw [List.mem_singleton.mp hb]; rintro rfl; exact hno ha⟩)
      (by
        intro q hq'
        rcases List.mem_append.mp hq' with hq' | hq'
        · exact hq q (mem_cons_of_mem _ hq')
        · exact ((hedge q).mpr hq').lt' V)
      (by
        intro x hx c hxc
        rcases List.mem_append.mp hx with hx | hx
        · rcases hc x hx c hxc with h | h
          · exact .inl (mem_append_left _ h)
          · rcases List.mem_cons.mp h with rfl | h
            · exact .inl (by simp)
            · exact .inr (mem_append_left _ h)
        · rw [List.mem_singleton.mp hx] at hxc
          exact .inr (List.mem_append_right _ ((hedge c).mp hxc)))
    rw [List.append_assoc, List.singleton_append] at hb
    refine ⟨node :: new, ?_, S.visit hnode fun c hc => (hedge c).mpr hc⟩
    rw [bfs_number (by rw [h, not_ne_iff.mp hnum]) hs]
    exact hb

/-! ## Components -/

/-- A part of the graph that no edge leaves or enters, and whose nodes reach each other. -/
structure Component (graph : Graph) (K : Nat → Prop) : Prop where
  edge : ∀ a b, Edge graph a b → (K a ↔ K b)
  reach : ∀ a b, K a → K b → Relation.ReflTransGen (Edge graph) a b

/-- The nodes of `K` stand next to each other. -/
def Contiguous (K : Nat → Prop) (order : List Nat) : Prop :=
  ∀ (i j k x y z : Nat), i ≤ j → j ≤ k → order[i]? = some x → order[j]? = some y → order[k]? = some z → K x → K z → K y

theorem Component.reach_iff {graph : Graph} {K : Nat → Prop} (C : Component graph K) {a b : Nat}
    (h : Relation.ReflTransGen (Edge graph) a b) : K a ↔ K b := by
  induction h with
  | refl => exact Iff.rfl
  | tail _ h ih => exact ih.trans (C.edge _ _ h)

theorem closed_reach {s : Graph} {order : List Nat} (hc : ∀ x ∈ order, ∀ c, Edge s x c → c ∈ order) {x y : Nat}
    (hx : x ∈ order) (h : Relation.ReflTransGen (Edge s) x y) : y ∈ order := by
  induction h with
  | refl => exact hx
  | tail _ h ih => exact hc _ ih _ h

/-- A search finds all of a component or nothing of it. -/
theorem Contiguous.search {s : Graph} {K : Nat → Prop} (C : Component s K) {order new : List Nat} {r : Nat}
    (h : Contiguous K order) (hc : ∀ x ∈ order, ∀ c, Edge s x c → c ∈ order) (S : Searched s order [r] new) :
    Contiguous K (order ++ new) := by
  have hnew : ∀ x ∈ new, K x ↔ K r := by
    intro x hx
    obtain ⟨q, hq, hr⟩ := S.found x hx
    rw [List.mem_singleton.mp hq] at hr
    exact (C.reach_iff hr).symm
  have hdis : ∀ x ∈ order, x ∉ new := fun x hx hx' => (List.nodup_append.mp S.nodup).2.2 x hx x hx' rfl
  have hold : ∀ {i x}, (order ++ new)[i]? = some x → x ∈ order ∨ x ∈ new := fun hx =>
    List.mem_append.mp (mem_of_getElem? hx)
  intro i j k x y z hij hjk hi hj hk hx hz
  by_cases hin : ∃ v ∈ order, K v
  · -- the component is in the order already
    obtain ⟨v, hv, hKv⟩ := hin
    have hall : ∀ w, K w → w ∈ order := fun w hw => closed_reach hc hv (C.reach v w hKv hw)
    have hko : k < order.length := by
      by_contra hge
      rw [List.getElem?_append_right (by omega)] at hk
      exact hdis z (hall z hz) (mem_of_getElem? hk)
    rw [List.getElem?_append_left (by omega)] at hi hj hk
    exact h i j k x y z hij hjk hi hj hk hx hz
  · have hxn : x ∈ new := (hold hi).resolve_left fun hxo => hin ⟨x, hxo, hx⟩
    have hi' : order.length ≤ i := by
      by_contra hlt
      rw [List.getElem?_append_left (by omega)] at hi
      exact hdis x (mem_of_getElem? hi) hxn
    rw [List.getElem?_append_right (by omega)] at hj
    exact (hnew y (mem_of_getElem? hj)).mpr ((hnew x hxn).mp hx)

/-- What holds of the order between two searches. -/
structure Between (s : Graph) (order : List Nat) : Prop where
  nodup : order.Nodup
  bound : ∀ x ∈ order, x < s.length
  closed : ∀ x ∈ order, ∀ c, Edge s x c → c ∈ order
  contiguous : ∀ K, Component s K → Contiguous K order

theorem Between.search {s : Graph} {order new : List Nat} {r : Nat} (B : Between s order) (S : Searched s order [r] new) :
    Between s (order ++ new) where
  nodup := S.nodup
  bound x hx := (List.mem_append.mp hx).elim (B.bound x) (S.bound x)
  closed := S.closed
  contiguous K C := (B.contiguous K C).search C B.closed S

theorem roots_between {s : Graph} (V : Valid s) (roots order : List Nat) (hr : ∀ r ∈ roots, r < s.length)
    (B : Between s order) :
    ∃ order', roots.foldlM (fun (x : List Int × Nat) node => bfs s x.1 x.2 [node]) (numbers s.length order, order.length) =
        .ok (numbers s.length order', order'.length) ∧
      Between s order' ∧ (∀ x ∈ order, x ∈ order') ∧ ∀ r ∈ roots, r ∈ order' := by
  induction roots generalizing order with
  | nil => exact ⟨order, rfl, B, fun _ h => h, by simp⟩
  | cons r roots ih =>
    obtain ⟨new, hb, S⟩ := bfs_searched V _ _ [r] order rfl rfl B.nodup (fun q hq => hr q (by simpa using .inl (List.mem_singleton.mp hq)))
      fun x hx c hxc => .inl (B.closed x hx c hxc)
    obtain ⟨order', hf, B', ho, hr'⟩ := ih (order ++ new) (fun q hq => hr q (mem_cons_of_mem _ hq)) (B.search S)
    refine ⟨order', ?_, B', fun x hx => ho x (mem_append_left _ hx), ?_⟩
    · rw [foldlM_cons, hb]
      exact hf
    · intro q hq
      rcases List.mem_cons.mp hq with rfl | hq
      · exact ho q (S.queued q (.head _))
      · exact hr' q hq

theorem less_weak (graph : Graph) : BinHeap.Weak (less graph) (fun _ => True) where
  asymm := by
    intro x y _ _ h
    simp only [less, decide_eq_true_eq, decide_eq_false_iff_not] at h ⊢
    omega
  trans := by
    intro x y z _ _ _ h h'
    simp only [less, decide_eq_false_iff_not] at h h' ⊢
    omega

theorem Component.turned {graph s : Graph} (h : ∀ c x, Edge s c x ↔ Edge graph x c) {K : Nat → Prop} (C : Component graph K) :
    Component s K where
  edge a b hab := (C.edge b a ((h a b).mp hab)).symm
  reach a b ha hb := by
    have hs : Edge s = Function.swap (Edge graph) := by
      funext c x
      exact propext (h c x)
    rw [hs, Relation.reflTransGen_swap]
    exact C.reach b a hb ha

/-- Every node is numbered once, and components are numbered in one go. -/
theorem optimize_order {graph : Graph} (V : Valid graph) :
    ∃ order, optimize graph = .ok (numbers graph.length order) ∧ order.Perm (range graph.length) ∧
      ∀ K, Component graph K → Contiguous K order := by
  obtain ⟨nodes, hsort, hperm, -⟩ := Heap.HeapSort.sort_sorted (less_weak graph) (range graph.length)
  have hlt : ∀ x ∈ nodes, x < graph.length := fun x hx => List.mem_range.mp (hperm.mem_iff.mp hx)
  obtain ⟨s, hs, hlen, he⟩ := sortedGraph_edge V hlt
  have hedge : ∀ c x, Edge s c x ↔ Edge graph x c := by
    intro c x
    rw [he]
    exact and_iff_right_of_imp fun h => hperm.mem_iff.mpr (List.mem_range.mpr h.lt)
  have Vs : Valid s := by
    intro l hl x hx
    obtain ⟨c, hc⟩ := List.getElem?_of_mem hl
    rw [hlen]
    exact ((hedge c x).mp ⟨l, hc, hx⟩).lt
  obtain ⟨order, hf, B, -, hall⟩ := roots_between Vs nodes [] (by rw [hlen]; exact hlt)
    ⟨.nil, by simp, by simp, fun K _ i j k x y z _ _ hi => by simp at hi⟩
  rw [hlen] at hf
  refine ⟨order, ?_, ?_, fun K C => B.contiguous K (C.turned hedge)⟩
  · rw [optimize, hsort]
    show (sortedGraph graph nodes >>= _) = _
    rw [hs]
    show (nodes.foldlM (fun (x : List Int × Nat) node => bfs s x.1 x.2 [node]) (replicate graph.length (-1), 0) >>= _) = _
    rw [numbers_nil] at hf
    rw [show (replicate graph.length (-1 : Int), 0) = (replicate graph.length (-1), ([] : List Nat).length) from rfl, hf]
    rfl
  · rw [List.perm_ext_iff_of_nodup B.nodup nodup_range]
    intro x
    rw [mem_range]
    constructor
    · intro hx
      rw [← hlen]
      exact B.bound x hx
    · intro hx
      exact hall x (hperm.mem_iff.mpr (List.mem_range.mpr hx))

/-! ## The inverse and the new graph -/

section permutation

variable {n : Nat} {order : List Nat} (hp : order.Perm (range n))
include hp

theorem order_mem {k : Nat} : k ∈ order ↔ k < n := by rw [hp.mem_iff, mem_range]

theorem order_length : order.length = n := by simpa using hp.length_eq

theorem order_nodup : order.Nodup := hp.nodup_iff.mpr nodup_range

theorem numbers_order : numbers n order = (range n).map fun k => (order.idxOf k : Int) := by
  rw [numbers]
  apply List.map_congr_left
  intro k hk
  rw [if_pos ((order_mem hp).mpr (List.mem_range.mp hk))]

theorem idxOf_iff {i k : Nat} (hi : i < n) : order[i]? = some k ↔ k < n ∧ order.idxOf k = i := by
  constructor
  · intro h
    obtain ⟨hlt, rfl⟩ := List.getElem?_eq_some_iff.mp h
    exact ⟨(order_mem hp).mp (getElem_mem _), (order_nodup hp).idxOf_getElem i hlt⟩
  · intro ⟨hk, rfl⟩
    have := idxOf_lt_length_of_mem ((order_mem hp).mpr hk)
    rw [getElem?_eq_getElem this, List.getElem_idxOf]

/-- The inverse of the numbering is the order. -/
theorem inverse_numbers : inverse (numbers n order) = .ok (order.map fun k : Nat => (k : Int)) := by
  have hlen := order_length hp
  -- after the first `m` nodes
  have step : ∀ m, m ≤ n → ((range m).map fun k => ((order.idxOf k : Int), k)).foldlM
      (fun (a : List Int) (x : Int × Nat) => update a x.1 (x.2 : Int)) (replicate n (-1)) =
        .ok (order.map fun k => if k < m then (k : Int) else -1) := by
    intro m hm
    induction m with
    | zero =>
      simp only [List.range_zero, List.map_nil, List.foldlM_nil, Nat.not_lt_zero, if_false, List.map_const', hlen]
      rfl
    | succ m ih =>
      rw [List.range_succ, List.map_append, List.foldlM_append, ih (by omega)]
      have hm' : m ∈ order := (order_mem hp).mpr (by omega)
      have hidx := idxOf_lt_length_of_mem hm'
      show (update (order.map fun k => if k < m then (k : Int) else -1) (order.idxOf m : Int) (m : Int) >>= _) = _
      rw [update_eq _ (by simpa using hidx)]
      show Except.ok _ = Except.ok _
      congr 1
      apply ext_getElem?
      intro j
      rw [getElem?_map]
      by_cases hj : j = order.idxOf m
      · subst hj
        rw [List.getElem?_set_self (by simpa using hidx), getElem?_eq_getElem hidx, List.getElem_idxOf]
        simp
      · rw [List.getElem?_set_ne (Ne.symm hj), getElem?_map]
        cases hx : order[j]? with
        | none => rfl
        | some k =>
          have hkm : k ≠ m := by
            intro same
            subst same
            obtain ⟨hlt, hk⟩ := List.getElem?_eq_some_iff.mp hx
            exact hj (by rw [← hk, (order_nodup hp).idxOf_getElem])
          simp only [Option.map_some, Option.some.injEq]
          by_cases hlt : k < m
          · rw [if_pos hlt, if_pos (by omega)]
          · rw [if_neg hlt, if_neg (by omega)]
  have hz : (numbers n order).zipIdx = (range n).map fun k => ((order.idxOf k : Int), k) := by
    rw [numbers_order hp]
    apply ext_getElem?
    intro j
    by_cases hj : j < n
    · simp [hj]
    · simp [hj]
  rw [inverse, hz, numbers_length, step n (Nat.le_refl _)]
  congr 1
  apply List.map_congr_left
  intro k hk
  rw [if_pos ((order_mem hp).mp hk)]

theorem relabel_numbers {graph : Graph} (V : Valid graph) (hn : n = graph.length) :
    relabel graph (numbers n order) =
      .ok ((range n).map fun i => (graph.getD (order.getD i 0) []).map fun k => (order.idxOf k : Int)) := by
  have hlen := order_length hp
  rw [relabel, inverse_numbers hp]
  show (range graph.length).mapM (fun i : Nat => (do
    let k ← sub (order.map fun k : Nat => (k : Int)) i
    let edges ← sub graph k
    edges.mapM fun j : Nat => sub (numbers n order) j : Except Exn (List Int))) = _
  rw [← hn]
  apply mapM_eq
  intro i hi
  have hi' : i < n := List.mem_range.mp hi
  have hx := getElem?_eq_getElem (show i < order.length by omega)
  have hk : order[i] < n := (order_mem hp).mp (getElem_mem _)
  have hg := getElem?_eq_getElem (show order[i] < graph.length by omega)
  rw [sub_eq (x := (order[i] : Int)) (by rw [getElem?_map, hx]; rfl)]
  show (sub graph (order[i] : Int) >>= _) = _
  rw [sub_eq hg]
  show (graph[order[i]]).mapM (fun j : Nat => sub (numbers n order) j) = _
  simp only [List.getD_eq_getElem?_getD, hx, Option.getD_some, hg]
  apply mapM_eq
  intro j hj
  have hjn : j < n := by
    rw [hn]
    exact V _ (getElem_mem _) j hj
  exact sub_eq (by rw [numbers_order hp, getElem?_map, getElem?_range hjn]; rfl)

/-- Renaming keeps the number of times a node is listed. -/
theorem count_idxOf {l : List Nat} (hl : ∀ x ∈ l, x < n) {j v : Nat} (hv : order[j]? = some v) :
    (l.map fun k => (order.idxOf k : Int)).count (j : Int) = l.count v := by
  have hj : j < n := by
    rw [← order_length hp]
    exact (List.getElem?_eq_some_iff.mp hv).1
  induction l with
  | nil => rfl
  | cons x l ih =>
    rw [List.map_cons, List.count_cons, List.count_cons, ih fun y hy => hl y (mem_cons_of_mem _ hy)]
    congr 1
    have hiff : ((order.idxOf x : Int) == (j : Int)) = (x == v) := by
      rw [Bool.eq_iff_iff, beq_iff_eq, beq_iff_eq, Int.natCast_inj]
      constructor
      · intro h
        have := (idxOf_iff hp hj).mpr ⟨hl x (.head _), h⟩
        rw [hv] at this
        exact (Option.some.inj this).symm
      · intro same
        subst same
        exact ((idxOf_iff hp hj).mp hv).2
    rw [hiff]

end permutation

/-! ## The result -/

/-- `inv` is the inverse of the permutation, and `graph'` the graph with the new numbers. -/
structure Isomorphism (graph : Graph) (permutation inv : List Int) (graph' : List (List Int)) : Prop where
  perm : permutation.Perm ((range graph.length).map fun k : Nat => (k : Int))
  permInv : inv.Perm ((range graph.length).map fun k : Nat => (k : Int))
  left : ∀ u < graph.length, ∃ i < graph.length, permutation[u]? = some (i : Int) ∧ inv[i]? = some (u : Int)
  right : ∀ i < graph.length, ∃ u < graph.length, inv[i]? = some (u : Int) ∧ permutation[u]? = some (i : Int)
  size : graph'.length = graph.length
  /-- the edges, with their multiplicity -/
  edges : ∀ i < graph.length, ∀ j < graph.length, ∃ (u v : Nat) (l : List Nat) (l' : List Int),
    inv[i]? = some (u : Int) ∧ inv[j]? = some (v : Int) ∧ graph[u]? = some l ∧ graph'[i]? = some l' ∧
      l'.count (j : Int) = l.count v
  entries : ∀ l' ∈ graph', ∀ x ∈ l', ∃ j < graph.length, x = (j : Int)

/-- Along edges in either direction. -/
def Linked (graph : Graph) : Nat → Nat → Prop := Relation.EqvGen (Edge graph)

/-- The numbers of the component of `u` form an interval. -/
def ContiguousFrom (graph : Graph) (permutation : List Int) (u : Nat) : Prop :=
  ∀ (v w x : Nat) (a b c : Int), Linked graph u v → Linked graph u w → permutation[v]? = some a → permutation[w]? = some b →
    permutation[x]? = some c → a ≤ c → c ≤ b → Linked graph u x

theorem component_linked {graph : Graph} {u : Nat}
    (h : ∀ v w, Linked graph u v → Linked graph u w → Relation.ReflTransGen (Edge graph) v w) :
    Component graph (Linked graph u) where
  edge _ _ hab := ⟨fun ha => .trans _ _ _ ha (.rel _ _ hab), fun hb => .trans _ _ _ hb (.symm _ _ (.rel _ _ hab))⟩
  reach := h

theorem Contiguous.from {graph : Graph} {n : Nat} {order : List Nat} (hp : order.Perm (range n)) {u : Nat}
    (h : Contiguous (Linked graph u) order) : ContiguousFrom graph (numbers n order) u := by
  intro v w x _ _ _ hv hw ha hb hc hac hcb
  rw [numbers_order hp] at ha hb hc
  have get : ∀ {k : Nat} {a : Int}, ((range n).map fun k => (order.idxOf k : Int))[k]? = some a →
      a = (order.idxOf k : Int) ∧ order[order.idxOf k]? = some k := by
    intro k a hk
    have hkn : k < n := by
      have := (List.getElem?_eq_some_iff.mp hk).1
      simpa using this
    rw [getElem?_map, getElem?_range hkn] at hk
    have hlt := idxOf_lt_length_of_mem ((order_mem hp).mpr hkn)
    rw [order_length hp] at hlt
    exact ⟨(Option.some.inj hk).symm, (idxOf_iff hp hlt).mpr ⟨hkn, rfl⟩⟩
  obtain ⟨rfl, hv'⟩ := get ha
  obtain ⟨rfl, hw'⟩ := get hb
  obtain ⟨rfl, hx'⟩ := get hc
  exact h _ _ _ v x w (by omega) (by omega) hv' hx' hw' hv hw

/-- For every graph. -/
theorem optimize_isomorphism (graph : Graph) (V : Valid graph) :
    ∃ permutation inv graph', optimize graph = .ok permutation ∧ inverse permutation = .ok inv ∧
      relabel graph permutation = .ok graph' ∧ Isomorphism graph permutation inv graph' ∧
      ∀ u, (∀ v w, Linked graph u v → Linked graph u w → Relation.ReflTransGen (Edge graph) v w) →
        ContiguousFrom graph permutation u := by
  obtain ⟨order, ho, hp, hc⟩ := optimize_order V
  have hlen := order_length hp
  have hget : ∀ i, i < graph.length → ∃ u, u < graph.length ∧ order[i]? = some u ∧
      (order.map fun k : Nat => (k : Int))[i]? = some (u : Int) ∧ (numbers graph.length order)[u]? = some (i : Int) := by
    intro i hi
    have hx := getElem?_eq_getElem (show i < order.length by omega)
    obtain ⟨hlt, hidx⟩ := (idxOf_iff hp hi).mp hx
    refine ⟨_, hlt, hx, by rw [getElem?_map, hx]; rfl, ?_⟩
    rw [numbers_order hp, getElem?_map, getElem?_range hlt]
    simp [hidx]
  refine ⟨_, _, _, ho, inverse_numbers hp, relabel_numbers hp V rfl, ⟨?_, hp.map _, ?_, ?_, by simp, ?_, ?_⟩, ?_⟩
  · rw [numbers_order hp]
    have hnd : ((range graph.length).map fun k => order.idxOf k).Nodup := by
      apply List.Nodup.map_on
      · intro a ha b hb hab
        have ha' := (order_mem hp).mpr (List.mem_range.mp ha)
        exact (List.idxOf_inj ha').mp hab
      · exact nodup_range
    have hsub : ((range graph.length).map fun k => order.idxOf k) ⊆ range graph.length := by
      intro x hx
      obtain ⟨k, hk, rfl⟩ := List.mem_map.mp hx
      rw [mem_range, ← hlen]
      exact idxOf_lt_length_of_mem ((order_mem hp).mpr (List.mem_range.mp hk))
    have := ((hnd.subperm hsub).perm_of_length_le (by simp)).map fun k : Nat => (k : Int)
    rwa [List.map_map] at this
  · intro u hu
    have hmem := (order_mem hp).mpr hu
    have hlt := idxOf_lt_length_of_mem hmem
    rw [hlen] at hlt
    obtain ⟨u', hu', hou, hinv, hnum⟩ := hget _ hlt
    have : order[order.idxOf u]? = some u := (idxOf_iff hp hlt).mpr ⟨hu, rfl⟩
    rw [hou] at this
    cases this
    exact ⟨_, hlt, hnum, hinv⟩
  · intro i hi
    obtain ⟨u, hu, -, hinv, hnum⟩ := hget i hi
    exact ⟨u, hu, hinv, hnum⟩
  · intro i hi j hj
    obtain ⟨u, hu, hou, hinvu, -⟩ := hget i hi
    obtain ⟨v, hv, hov, hinvv, -⟩ := hget j hj
    have hg := getElem?_eq_getElem hu
    refine ⟨u, v, graph[u], graph[u].map fun k => (order.idxOf k : Int), hinvu, hinvv, hg, ?_, ?_⟩
    · rw [getElem?_map, getElem?_range hi]
      simp only [Option.map_some, List.getD_eq_getElem?_getD, hou, Option.getD_some, hg]
    · exact count_idxOf hp (V _ (getElem_mem _)) hov
  · intro l' hl' x hx
    obtain ⟨i, hi, rfl⟩ := List.mem_map.mp hl'
    obtain ⟨k, hk, rfl⟩ := List.mem_map.mp hx
    obtain ⟨u, hu, hou, -⟩ := hget i (List.mem_range.mp hi)
    simp only [List.getD_eq_getElem?_getD, hou, Option.getD_some, getElem?_eq_getElem hu] at hk
    have hkn := V _ (getElem_mem hu) k hk
    refine ⟨_, ?_, rfl⟩
    rw [← hlen]
    exact idxOf_lt_length_of_mem ((order_mem hp).mpr hkn)
  · intro u hu
    exact (hc _ (component_linked hu)).from hp

theorem optimize_isomorphism_path :
    ∃ permutation inv graph', optimize [[1], [0, 2, 2], [1, 1]] = .ok permutation ∧ inverse permutation = .ok inv ∧
      relabel [[1], [0, 2, 2], [1, 1]] permutation = .ok graph' ∧
      Isomorphism [[1], [0, 2, 2], [1, 1]] permutation inv graph' := by
  obtain ⟨permutation, inv, graph', ho, hi, hr, h, -⟩ := optimize_isomorphism [[1], [0, 2, 2], [1, 1]] (by decide)
  exact ⟨permutation, inv, graph', ho, hi, hr, h⟩

/-- Node 0 has an edge to node 1, which is found from it only backwards: node 2, which has
    no part in their component, is numbered between them. -/
theorem optimize_between : optimize [[1], [1, 1, 1], [2, 2]] = .ok [0, 2, 1] := by
  have h₁ : Heap.fixTooBig (Heap.HeapSort.ops (less [[1], [1, 1, 1], [2, 2]])) [0, 1, 2] 0 3 0 = .ok [1, 0, 2] :=
    Heap.HeapSort.fixTooBig_eq _ (by decide) (by decide)
  have h₂ : Heap.fixTooBig (Heap.HeapSort.ops (less [[1], [1, 1, 1], [2, 2]])) [1, 0, 1] 0 2 2 = .ok [2, 0, 1] :=
    Heap.HeapSort.fixTooBig_eq _ (by decide) (by decide)
  have h₃ : Heap.fixTooBig (Heap.HeapSort.ops (less [[1], [1, 1, 1], [2, 2]])) [2, 2, 1] 0 1 0 = .ok [0, 2, 1] :=
    Heap.HeapSort.fixTooBig_eq _ (by decide) (by decide)
  have hsort : Heap.HeapSort.sort (less [[1], [1, 1, 1], [2, 2]]) [0, 1, 2] = .ok [0, 2, 1] := by
    show (Heap.fixTooBig (Heap.HeapSort.ops (less [[1], [1, 1, 1], [2, 2]])) [0, 1, 2] 0 3 0 >>= _) >>= _ = _
    rw [h₁]
    show Heap.fixTooBig (Heap.HeapSort.ops (less [[1], [1, 1, 1], [2, 2]])) [1, 0, 1] 0 2 2 >>= _ = _
    rw [h₂]
    show Heap.fixTooBig (Heap.HeapSort.ops (less [[1], [1, 1, 1], [2, 2]])) [2, 2, 1] 0 1 0 >>= _ = _
    rw [h₃]
    rfl
  have hs : sortedGraph [[1], [1, 1, 1], [2, 2]] [0, 2, 1] = .ok [[], [0, 1, 1, 1], [2, 2]] := by decide
  have b₁ : bfs [[], [0, 1, 1, 1], [2, 2]] [-1, -1, -1] 0 [0] = .ok ([0, -1, -1], 1) :=
    (bfs_number rfl rfl).trans (bfs_nil _ _ _)
  have b₂ : bfs [[], [0, 1, 1, 1], [2, 2]] [0, -1, -1] 1 [2] = .ok ([0, -1, 1], 2) :=
    (bfs_number rfl rfl).trans ((bfs_skip rfl (by decide)).trans ((bfs_skip rfl (by decide)).trans (bfs_nil _ _ _)))
  have b₃ : bfs [[], [0, 1, 1, 1], [2, 2]] [0, -1, 1] 2 [1] = .ok ([0, 2, 1], 3) :=
    (bfs_number rfl rfl).trans ((bfs_skip rfl (by decide)).trans ((bfs_skip rfl (by decide)).trans
      ((bfs_skip rfl (by decide)).trans ((bfs_skip rfl (by decide)).trans (bfs_nil _ _ _)))))
  have hf : [0, 2, 1].foldlM (fun (x : List Int × Nat) node => bfs [[], [0, 1, 1, 1], [2, 2]] x.1 x.2 [node])
      ([-1, -1, -1], 0) = .ok ([0, 2, 1], 3) := by
    rw [foldlM_cons]
    refine bind_eq_ok.mpr ⟨_, b₁, ?_⟩
    rw [foldlM_cons]
    refine bind_eq_ok.mpr ⟨_, b₂, ?_⟩
    rw [foldlM_cons]
    exact bind_eq_ok.mpr ⟨_, b₃, rfl⟩
  exact bind_eq_ok.mpr ⟨_, hsort, bind_eq_ok.mpr ⟨_, hs, bind_eq_ok.mpr ⟨_, hf, rfl⟩⟩⟩

theorem component_split :
    ¬ ∀ (graph : Graph) (permutation : List Int), Valid graph → optimize graph = .ok permutation →
      ∀ u, ContiguousFrom graph permutation u := by
  intro h
  have h2 := h _ _ (by decide) optimize_between 0 0 1 2 0 2 1 (.refl _) (.rel _ _ ⟨_, rfl, by decide⟩) rfl rfl rfl
    (by decide) (by decide)
  -- node 2 is linked to itself only
  have key : ∀ a b, Linked [[1], [1, 1, 1], [2, 2]] a b → (a = 2 ↔ b = 2) := by
    intro a b hab
    induction hab with
    | rel a b h =>
      obtain ⟨l, hl, hb⟩ := h
      have ha := (List.getElem?_eq_some_iff.mp hl).1
      have : a = 0 ∨ a = 1 ∨ a = 2 := by simp at ha; omega
      rcases this with rfl | rfl | rfl <;> cases hl <;> simp at hb <;> omega
    | refl => exact Iff.rfl
    | symm _ _ _ ih => exact ih.symm
    | trans _ _ _ _ _ ih ih' => exact ih.trans ih'
  have := (key 0 2 h2).mpr rfl
  cases this

end BubbleStorm.Util.Matrix.CuthillMcKee
