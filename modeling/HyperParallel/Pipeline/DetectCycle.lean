import Mathlib.Algebra.Order.BigOperators.Group.Finset
import Mathlib.Data.List.Chain
import Mathlib.Logic.Relation

/-!
# Cycles between the orders of the ranks

`detect_cycle_in_graph` of `core/pipeline_parallel/scheduler.py`: an iterative depth-first search.

* `Graph.build`: the graph of consecutive nodes, and the rank of every edge;
* `step`, `search`, `detectCycleInGraph`: the search with its stack, its path and its index map;
* `Frames`, `Inv`: what the stack holds for each node of the path, and the invariant of the search;
* `detectCycleInGraph_correct`: a cycle is returned exactly when there is one.
-/

open scoped BigOperators
open Relation

namespace HyperParallel.Pipeline.DetectCycle

variable {ν ρ : Type} [DecidableEq ν]

/-! ### The graph -/

/-- `graph`, with its keys in the order of insertion, and `rank_edges`. -/
structure Graph (ν ρ : Type) where
  keys : List ν
  successors : ν → List ν
  rankEdges : ν × ν → Option ρ

namespace Graph

def empty : Graph ν ρ := ⟨[], fun _ => [], fun _ => none⟩

/-- `graph[u].append(v)` and `rank_edges[(u, v)] = rank`. -/
def addEdge (g : Graph ν ρ) (e : ρ × ν × ν) : Graph ν ρ where
  keys := if e.2.1 ∈ g.keys then g.keys else g.keys ++ [e.2.1]
  successors := Function.update g.successors e.2.1 (g.successors e.2.1 ++ [e.2.2])
  rankEdges := Function.update g.rankEdges e.2 (some e.1)

/-- An edge of the graph. -/
def Edge (g : Graph ν ρ) (u v : ν) : Prop := v ∈ g.successors u

end Graph

/-- The consecutive nodes of every rank. -/
def labelledEdges (ranksMap : List (ρ × List ν)) : List (ρ × ν × ν) :=
  ranksMap.flatMap fun (rank, nodes) => (nodes.zip nodes.tail).map fun e => (rank, e)

def buildGraph (ranksMap : List (ρ × List ν)) : Graph ν ρ :=
  (labelledEdges ranksMap).foldl Graph.addEdge Graph.empty

/-! ### The search -/

/-- The stack, its top first, and the other variables of the search. -/
structure Search (ν : Type) where
  stack : List (ν × Bool)
  visited : Finset ν
  path : List ν
  nodeIndices : ν → Option ℕ

inductive Raised
  | indexError
  | keyError

/-- What one round of the loop leads to. -/
inductive Outcome (ν ρ : Type)
  | done
  | next (s : Search ν)
  | found (cyclePath : List ν) (cycleRanks : List (ρ × ν × ν))
  | raised (e : Raised)

/-- `cycle_ranks`: every edge of the cycle with its rank, if `rank_edges` has it. -/
def cycleRanks (g : Graph ν ρ) (path : List ν) (currentNode : ν) (cycleStart : ℕ) :
    Option (List (ρ × ν × ν)) :=
  ((path.drop cycleStart).zip (path.drop (cycleStart + 1) ++ [currentNode])).mapM fun e =>
    (g.rankEdges e).map fun rank => (rank, e)

/-- One round of the loop. -/
def step (g : Graph ν ρ) (s : Search ν) : Outcome ν ρ :=
  match s.stack with
  | [] => .done
  | (currentNode, true) :: stack =>
    if s.path = [] then .raised .indexError
    else if s.nodeIndices currentNode = none then .raised .keyError
    else
      .next { s with
        stack := stack
        path := s.path.dropLast
        nodeIndices := Function.update s.nodeIndices currentNode none }
  | (currentNode, false) :: stack =>
    match s.nodeIndices currentNode with
    | some cycleStart =>
      match cycleRanks g s.path currentNode cycleStart with
      | some ranks => .found (s.path.drop cycleStart ++ [currentNode]) ranks
      | none => .raised .keyError
    | none =>
      if currentNode ∈ s.visited then .next { s with stack := stack }
      else
        .next {
          -- the first successor on top
          stack := (g.successors currentNode).map (·, false) ++ (currentNode, true) :: stack
          visited := insert currentNode s.visited
          path := s.path ++ [currentNode]
          nodeIndices := Function.update s.nodeIndices currentNode (some s.path.length) }

/-- `while stack`, within the given number of rounds. -/
def search (g : Graph ν ρ) : ℕ → Search ν →
    Option (Except Raised (Search ν ⊕ List ν × List (ρ × ν × ν)))
  | 0, _ => none
  | fuel + 1, s =>
    match step g s with
    | .done => some (.ok (.inl s))
    | .next s' => search g fuel s'
    | .found cyclePath cycleRanks => some (.ok (.inr (cyclePath, cycleRanks)))
    | .raised e => some (.error e)

/-- The search from every key. -/
def searchAll (g : Graph ν ρ) (fuel : ℕ) : List ν → Search ν →
    Option (Except Raised (Option (List ν × List (ρ × ν × ν))))
  | [], _ => some (.ok none)
  | node :: nodes, s =>
    if node ∈ s.visited then searchAll g fuel nodes s
    else
      match search g fuel { s with stack := (node, false) :: s.stack } with
      | some (.ok (.inl s')) => searchAll g fuel nodes s'
      | some (.ok (.inr cycle)) => some (.ok (some cycle))
      | some (.error e) => some (.error e)
      | none => none

/-- `detect_cycle_in_graph`, within the given number of rounds for every key. -/
def detectCycleInGraph (fuel : ℕ) (ranksMap : List (ρ × List ν)) :
    Option (Except Raised (Option (List ν × List (ρ × ν × ν)))) :=
  searchAll (buildGraph ranksMap) fuel (buildGraph ranksMap).keys ⟨[], ∅, [], fun _ => none⟩

/-! ### What is returned -/

/-- A closed walk along labelled edges, with the labels of its edges. -/
structure ClosedWalk (edges : List (ρ × ν × ν)) (cyclePath : List ν) (ranks : List (ρ × ν × ν)) :
    Prop where
  ne_nil : ranks ≠ []
  closed : cyclePath.head? = cyclePath.getLast?
  walk : ranks.map Prod.snd = cyclePath.zip cyclePath.tail
  labels : ∀ e ∈ ranks, e ∈ edges

/-- Some rank has the nodes one after the other. -/
def Follows (ranksMap : List (ρ × List ν)) (u v : ν) : Prop :=
  ∃ rank, (rank, u, v) ∈ labelledEdges ranksMap

/-! ### The graph of the edges -/

section Build

variable {g : Graph ν ρ} {edges : List (ρ × ν × ν)}

/-- The graph has these edges. -/
structure HasEdges (g : Graph ν ρ) (edges : List (ρ × ν × ν)) : Prop where
  edge : ∀ u v, g.Edge u v ↔ ∃ rank, (rank, u, v) ∈ edges
  keys : ∀ u v, g.Edge u v → u ∈ g.keys
  rank : ∀ u v, g.Edge u v → ∃ rank, g.rankEdges (u, v) = some rank ∧ (rank, u, v) ∈ edges

omit [DecidableEq ν] in
theorem hasEdges_empty : HasEdges (Graph.empty : Graph ν ρ) [] where
  edge u v := by simp [Graph.Edge, Graph.empty]
  keys u v h := by cases h
  rank u v h := by cases h

theorem edge_addEdge (g : Graph ν ρ) (e : ρ × ν × ν) (u v : ν) :
    (g.addEdge e).Edge u v ↔ g.Edge u v ∨ e.2 = (u, v) := by
  obtain ⟨rank, a, b⟩ := e
  by_cases hu : u = a
  · subst hu
    simp [Graph.Edge, Graph.addEdge, eq_comm]
  · simp [Graph.Edge, Graph.addEdge, Function.update_of_ne hu, Ne.symm hu]

theorem HasEdges.addEdge (h : HasEdges g edges) (e : ρ × ν × ν) :
    HasEdges (g.addEdge e) (edges ++ [e]) where
  edge u v := by
    rw [edge_addEdge, h.edge]
    constructor
    · rintro (⟨rank, hmem⟩ | heq)
      · exact ⟨rank, List.mem_append_left _ hmem⟩
      · exact ⟨e.1, List.mem_append_right _ (List.mem_singleton.2 (by rw [← heq]))⟩
    · rintro ⟨rank, hmem⟩
      rcases List.mem_append.1 hmem with hmem | hmem
      · exact Or.inl ⟨rank, hmem⟩
      · exact Or.inr (by rw [← List.mem_singleton.1 hmem])
  keys u v hedge := by
    have hmem : ∀ w, w ∈ (g.addEdge e).keys ↔ w ∈ g.keys ∨ w = e.2.1 := by
      intro w
      rw [Graph.addEdge]
      split_ifs with hkey
      · exact ⟨Or.inl, fun hw => hw.elim id fun heq => heq ▸ hkey⟩
      · simp
    rcases (edge_addEdge g e u v).1 hedge with hold | heq
    · exact (hmem u).2 (Or.inl (h.keys u v hold))
    · exact (hmem u).2 (Or.inr (by rw [heq]))
  rank u v hedge := by
    rcases eq_or_ne (u, v) e.2 with heq | hne
    · refine ⟨e.1, ?_, List.mem_append_right _ (List.mem_singleton.2 ?_)⟩
      · rw [heq]
        exact Function.update_self _ _ _
      · rw [heq]
    · have hold := ((edge_addEdge g e u v).1 hedge).resolve_right fun heq => hne heq.symm
      obtain ⟨rank, hrank, hmem⟩ := h.rank u v hold
      exact ⟨rank, (Function.update_of_ne hne _ _).trans hrank, List.mem_append_left _ hmem⟩

theorem hasEdges_buildGraph (ranksMap : List (ρ × List ν)) :
    HasEdges (buildGraph ranksMap) (labelledEdges ranksMap) := by
  have hfold : ∀ (edges done : List (ρ × ν × ν)) (g : Graph ν ρ), HasEdges g done →
      HasEdges (edges.foldl Graph.addEdge g) (done ++ edges) := by
    intro edges
    induction edges with
    | nil =>
      intro done g h
      rwa [List.append_nil]
    | cons e edges ih =>
      intro done g h
      rw [List.append_cons]
      exact ih _ _ (h.addEdge e)
  exact hfold _ [] _ hasEdges_empty

end Build

/-! ### The invariant of the search -/

/-- What the stack holds. Above the mark of a node of the path, given here from its end, stand
successors of the node, and every successor is done, stands there, or is the next node of the path
(`child`). Below all marks the root takes the place of the successors. -/
inductive Frames (g : Graph ν ρ) (root : ν) (black : ν → Prop) :
    Option ν → List ν → List (ν × Bool) → Prop
  | base {child : Option ν} {pending : List ν} (hroot : ∀ w ∈ pending, w = root)
      (h : root ∈ pending ∨ black root ∨ child = some root) :
      Frames g root black child [] (pending.map (·, false))
  | node {child : Option ν} {v : ν} {pending path : List ν} {stack : List (ν × Bool)}
      (hedge : ∀ w ∈ pending, g.Edge v w)
      (h : ∀ w, g.Edge v w → w ∈ pending ∨ black w ∨ child = some w)
      (hrest : Frames g root black (some v) path stack) :
      Frames g root black child (v :: path) (pending.map (·, false) ++ (v, true) :: stack)

section Frames

omit [DecidableEq ν]

variable {g : Graph ν ρ} {root : ν} {black black' : ν → Prop} {child child' : Option ν}
  {path : List ν} {stack : List (ν × Bool)} {v w : ν}

theorem Frames.mono (h : Frames g root black child path stack) (hblack : ∀ u, black u → black' u)
    (hchild : ∀ u, child = some u → black' u ∨ child' = some u) :
    Frames g root black' child' path stack := by
  induction h generalizing child' with
  | base hroot hdone =>
    refine .base hroot ?_
    rcases hdone with hmem | hdone | hnext
    · exact Or.inl hmem
    · exact Or.inr (Or.inl (hblack _ hdone))
    · exact Or.inr (hchild _ hnext)
  | node hedge hdone _ ih =>
    refine .node hedge (fun w hw => ?_) (ih fun u hu => Or.inr hu)
    rcases hdone w hw with hmem | hdone | hnext
    · exact Or.inl hmem
    · exact Or.inr (Or.inl (hblack _ hdone))
    · exact Or.inr (hchild _ hnext)

/-- A node taken from the stack is done, or comes next. -/
theorem Frames.pop (h : Frames g root black none path ((w, false) :: stack))
    (hw : black w ∨ child = some w) : Frames g root black child path stack := by
  generalize hfull : (w, false) :: stack = full at h
  cases h with
  | @base _ pending hroot hdone =>
    cases pending with
    | nil => cases hfull
    | cons u pending =>
      cases hfull
      refine .base (fun u hu => hroot u (List.mem_cons_of_mem _ hu)) ?_
      rcases hdone with hmem | hdone | hnext
      · rcases List.mem_cons.1 hmem with rfl | hmem
        · exact Or.inr hw
        · exact Or.inl hmem
      · exact Or.inr (Or.inl hdone)
      · cases hnext
  | @node _ v pending path _ hedge hdone hrest =>
    cases pending with
    | nil => cases hfull
    | cons u pending =>
      cases hfull
      refine .node (fun u hu => hedge u (List.mem_cons_of_mem _ hu)) (fun u hu => ?_) hrest
      rcases hdone u hu with hmem | hdone | hnext
      · rcases List.mem_cons.1 hmem with rfl | hmem
        · exact Or.inr hw
        · exact Or.inl hmem
      · exact Or.inr (Or.inl hdone)
      · cases hnext

/-- A node on top of the stack is a successor of the last node of the path, or the root. -/
theorem Frames.edge (h : Frames g root black child path ((w, false) :: stack)) :
    (path = [] ∧ w = root) ∨ ∃ v rest, path = v :: rest ∧ g.Edge v w := by
  generalize hfull : (w, false) :: stack = full at h
  cases h with
  | @base _ pending hroot hdone =>
    cases pending with
    | nil => cases hfull
    | cons u pending =>
      cases hfull
      exact Or.inl ⟨rfl, hroot w List.mem_cons_self⟩
  | @node _ v pending path _ hedge hdone hrest =>
    cases pending with
    | nil => cases hfull
    | cons u pending =>
      cases hfull
      exact Or.inr ⟨v, path, rfl, hedge w List.mem_cons_self⟩

/-- A mark on top of the stack is that of the last node of the path, whose successors are done. -/
theorem Frames.close (h : Frames g root black none path ((v, true) :: stack)) :
    ∃ rest, path = v :: rest ∧ (∀ w, g.Edge v w → black w) ∧
      Frames g root black (some v) rest stack := by
  generalize hfull : (v, true) :: stack = full at h
  cases h with
  | @base _ pending _ _ =>
    cases pending with
    | nil => cases hfull
    | cons u pending => cases hfull
  | @node _ u pending path _ _ hdone hrest =>
    cases pending with
    | nil =>
      cases hfull
      refine ⟨path, rfl, fun w hw => ?_, hrest⟩
      rcases hdone w hw with hmem | hdone | hnext
      · cases hmem
      · exact hdone
      · cases hnext
    | cons w pending => cases hfull

theorem Frames.nil (h : Frames g root black none path []) : path = [] ∧ black root := by
  generalize hfull : [] = full at h
  cases h with
  | @base _ pending _ hdone =>
    cases pending with
    | nil =>
      rcases hdone with hmem | hdone | hnext
      · cases hmem
      · exact ⟨rfl, hdone⟩
      · cases hnext
    | cons u pending => cases hfull
  | @node _ u pending path _ _ _ _ =>
    cases pending with
    | nil => cases hfull
    | cons w pending => cases hfull

end Frames

/-- The node is visited and its search is over. -/
def Search.Black (s : Search ν) (v : ν) : Prop := v ∈ s.visited ∧ v ∉ s.path

/-- The invariant of the search from a root. -/
structure Inv (g : Graph ν ρ) (root : ν) (s : Search ν) : Prop where
  frames : Frames g root s.Black none s.path.reverse s.stack
  chain : s.path.IsChain g.Edge
  index : ∀ v i, s.nodeIndices v = some i ↔ s.path[i]? = some v
  visited : ∀ v ∈ s.path, v ∈ s.visited
  closed : ∀ v, s.Black v → ∀ w, g.Edge v w → s.Black w
  acyclic : ∀ v, s.Black v → ¬ TransGen g.Edge v v

section Paths

omit [DecidableEq ν]

variable {R : ν → ν → Prop} {l : List ν} {u v : ν} {i : ℕ}

theorem getElem?_concat_of_ne (h : u ≠ v) : (l ++ [v])[i]? = some u ↔ l[i]? = some u := by
  rw [List.getElem?_append]
  split_ifs with hlt
  · rfl
  · refine iff_of_false (fun hi => h ?_) fun hi => hlt (List.getElem?_eq_some_iff.1 hi).1
    exact List.mem_singleton.1 (List.mem_of_getElem? hi)

theorem getElem?_concat_self (h : v ∉ l) : (l ++ [v])[i]? = some v ↔ i = l.length := by
  constructor
  · intro hi
    rw [List.getElem?_append] at hi
    split_ifs at hi with hlt
    · exact absurd (List.mem_of_getElem? hi) h
    · have := (List.getElem?_eq_some_iff.1 hi).1
      rw [List.length_singleton] at this
      omega
  · rintro rfl
    exact List.getElem?_concat_length

theorem rel_of_mem_zip (h : l.IsChain R) : ∀ e ∈ l.zip l.tail, R e.1 e.2 := by
  induction h with
  | nil => simp
  | singleton => simp
  | cons_cons hab _ ih => exact List.forall_mem_cons.2 ⟨hab, ih⟩

theorem transGen_of_isChain (h : (u :: (l ++ [v])).IsChain R) : TransGen R u v := by
  induction l generalizing u with
  | nil => exact .single (List.isChain_cons_cons.1 h).1
  | cons w l ih =>
    obtain ⟨hedge, hrest⟩ := List.isChain_cons_cons.1 h
    exact .head hedge (ih hrest)

theorem exists_labels {g : Graph ν ρ} {edges : List (ρ × ν × ν)} {l : List (ν × ν)}
    (h : ∀ e ∈ l, ∃ rank, g.rankEdges e = some rank ∧ (rank, e) ∈ edges) :
    ∃ ranks, (l.mapM fun e => (g.rankEdges e).map fun rank => (rank, e)) = some ranks ∧
      ranks.map Prod.snd = l ∧ ∀ e ∈ ranks, e ∈ edges := by
  induction l with
  | nil => exact ⟨[], rfl, rfl, by simp⟩
  | cons e l ih =>
    obtain ⟨⟨rank, hrank, hmem⟩, hrest⟩ := List.forall_mem_cons.1 h
    obtain ⟨ranks, hranks, hsnd, hmems⟩ := ih hrest
    refine ⟨(rank, e) :: ranks, ?_, ?_, List.forall_mem_cons.2 ⟨hmem, hmems⟩⟩
    · rw [List.mapM_cons, hrank, hranks]
      rfl
    · rw [List.map_cons, hsnd]

end Paths

section Step

variable {g : Graph ν ρ} {root : ν} {s : Search ν} {v w : ν} {stack : List (ν × Bool)}

omit [DecidableEq ν] in
theorem Inv.black_of_reachable (h : Inv g root s) (hv : s.Black v)
    (hw : ReflTransGen g.Edge v w) : s.Black w := by
  induction hw with
  | refl => exact hv
  | tail _ hedge ih => exact h.closed _ ih _ hedge

omit [DecidableEq ν] in
theorem Inv.notMem_path (h : Inv g root s) (hindex : s.nodeIndices v = none) : v ∉ s.path := by
  intro hmem
  obtain ⟨i, hi⟩ := List.mem_iff_getElem?.1 hmem
  rw [(h.index v i).2 hi] at hindex
  cases hindex

omit [DecidableEq ν] in
/-- A node on top of the stack continues the path. -/
theorem Inv.chain_append (h : Inv g root s) (hstack : s.stack = (v, false) :: stack) :
    (s.path ++ [v]).IsChain g.Edge := by
  refine List.isChain_append.2 ⟨h.chain, List.isChain_singleton v, ?_⟩
  intro u hu w hw
  obtain rfl := Option.some.inj hw
  rw [← List.head?_reverse] at hu
  rcases (hstack ▸ h.frames).edge with ⟨hnil, -⟩ | ⟨u', rest, hpath, hedge⟩
  · rw [hnil] at hu
    cases hu
  · rw [hpath] at hu
    obtain rfl := Option.some.inj hu
    exact hedge

/-- The search of the last node of the path is over. -/
theorem Inv.close (h : Inv g root s) (hstack : s.stack = (v, true) :: stack) :
    ∃ path, s.path = path ++ [v] ∧ s.nodeIndices v ≠ none ∧
      Inv g root { s with
        stack := stack
        path := path
        nodeIndices := Function.update s.nodeIndices v none } := by
  obtain ⟨rest, hrest, hdone, hframes⟩ := (hstack ▸ h.frames).close
  have hpath : s.path = rest.reverse ++ [v] := by
    rw [← List.reverse_cons, ← hrest, List.reverse_reverse]
  have hlast : s.nodeIndices v = some rest.reverse.length := by
    rw [h.index, hpath, List.getElem?_concat_length]
  have hnew : v ∉ rest.reverse := by
    intro hmem
    obtain ⟨i, hlt, hi⟩ := List.mem_iff_getElem.1 hmem
    have hindex := (h.index v i).2 (by rw [hpath, List.getElem?_append_left hlt, List.getElem?_eq_getElem hlt, hi])
    rw [hlast] at hindex
    exact hlt.ne' (Option.some.inj hindex)
  refine ⟨rest.reverse, hpath, by rw [hlast]; exact nofun, ?_⟩
  set s' : Search ν := { s with
    stack := stack
    path := rest.reverse
    nodeIndices := Function.update s.nodeIndices v none } with hs'
  have hv : s'.Black v := ⟨h.visited v (by rw [hpath]; simp), hnew⟩
  have hold : ∀ u, s.Black u → s'.Black u := fun u hu =>
    ⟨hu.1, fun hmem => hu.2 (hpath ▸ List.mem_append_left _ hmem)⟩
  have hblack : ∀ u, s'.Black u → s.Black u ∨ u = v := by
    intro u hu
    by_cases hmem : u ∈ s.path
    · rw [hpath, List.mem_append, List.mem_singleton] at hmem
      exact Or.inr (hmem.resolve_left hu.2)
    · exact Or.inl ⟨hu.1, hmem⟩
  exact {
    frames := by
      rw [hs', List.reverse_reverse]
      exact hframes.mono hold fun u hu => Or.inl (Option.some.inj hu ▸ hv)
    chain := (List.isChain_append.1 (hpath ▸ h.chain)).1
    index := by
      intro u i
      by_cases hu : u = v
      · subst hu
        refine iff_of_false (by simp [hs']) fun hi => hnew (List.mem_of_getElem? hi)
      · have hsame : s'.nodeIndices u = s.nodeIndices u := Function.update_of_ne hu _ _
        rw [hsame, h.index, hpath, getElem?_concat_of_ne hu]
    visited := fun u hu => h.visited u (hpath ▸ List.mem_append_left _ hu)
    closed := by
      intro u hu w hedge
      rcases hblack u hu with hu | rfl
      · exact hold w (h.closed u hu w hedge)
      · exact hold w (hdone w hedge)
    acyclic := by
      intro u hu hcycle
      rcases hblack u hu with hu | rfl
      · exact h.acyclic u hu hcycle
      · -- its successors are done, and the nodes they reach
        obtain ⟨w, hedge, hreach⟩ := TransGen.head'_iff.1 hcycle
        exact (h.black_of_reachable (hdone w hedge) hreach).2 (by rw [hpath]; simp) }

omit [DecidableEq ν] in
/-- A node that is done is left out. -/
theorem Inv.skip (h : Inv g root s) (hstack : s.stack = (v, false) :: stack)
    (hindex : s.nodeIndices v = none) (hvisited : v ∈ s.visited) :
    Inv g root { s with stack := stack } where
  frames := (hstack ▸ h.frames).pop (Or.inl ⟨hvisited, h.notMem_path hindex⟩)
  chain := h.chain
  index := h.index
  visited := h.visited
  closed := h.closed
  acyclic := h.acyclic

/-- A new node is put at the end of the path. -/
theorem Inv.push (h : Inv g root s) (hstack : s.stack = (v, false) :: stack)
    (hindex : s.nodeIndices v = none) (hvisited : v ∉ s.visited) :
    Inv g root {
      stack := (g.successors v).map (·, false) ++ (v, true) :: stack
      visited := insert v s.visited
      path := s.path ++ [v]
      nodeIndices := Function.update s.nodeIndices v (some s.path.length) } := by
  have hblack : ∀ u, (u ∈ insert v s.visited ∧ u ∉ s.path ++ [v]) ↔ s.Black u := by
    intro u
    rw [Finset.mem_insert, List.mem_append, List.mem_singleton, Search.Black]
    constructor
    · rintro ⟨hmem, hnot⟩
      exact ⟨hmem.resolve_left fun heq => hnot (Or.inr heq), fun hpath => hnot (Or.inl hpath)⟩
    · rintro ⟨hmem, hnot⟩
      exact ⟨Or.inr hmem, fun hor => hor.elim hnot fun heq => hvisited (heq ▸ hmem)⟩
  exact {
    frames := by
      rw [List.reverse_append]
      refine .node (fun w hw => hw) (fun w hw => Or.inl hw) ?_
      exact ((hstack ▸ h.frames).pop (Or.inr rfl)).mono (fun u hu => (hblack u).2 hu)
        fun u hu => Or.inr hu
    chain := h.chain_append hstack
    index := by
      intro u i
      change Function.update s.nodeIndices v (some s.path.length) u = some i ↔
        (s.path ++ [v])[i]? = some u
      by_cases hu : u = v
      · subst hu
        have hsame : Function.update s.nodeIndices u (some s.path.length) u = some s.path.length :=
          Function.update_self _ _ _
        rw [hsame, getElem?_concat_self (h.notMem_path hindex), Option.some.injEq, eq_comm]
      · have hsame : Function.update s.nodeIndices v (some s.path.length) u = s.nodeIndices u :=
          Function.update_of_ne hu _ _
        rw [hsame, h.index, getElem?_concat_of_ne hu]
    visited := by
      intro u hu
      rcases List.mem_append.1 hu with hu | hu
      · exact Finset.mem_insert_of_mem (h.visited u hu)
      · exact Finset.mem_insert.2 (Or.inl (List.mem_singleton.1 hu))
    closed := fun u hu w hedge => (hblack w).2 (h.closed u ((hblack u).1 hu) w hedge)
    acyclic := fun u hu => h.acyclic u ((hblack u).1 hu) }

omit [DecidableEq ν] in
/-- A node of the path closes a cycle. -/
theorem Inv.found {edges : List (ρ × ν × ν)} (h : Inv g root s) (hg : HasEdges g edges)
    (hstack : s.stack = (v, false) :: stack) {cycleStart : ℕ}
    (hindex : s.nodeIndices v = some cycleStart) :
    ∃ ranks, cycleRanks g s.path v cycleStart = some ranks ∧
      ClosedWalk edges (s.path.drop cycleStart ++ [v]) ranks ∧ TransGen g.Edge v v := by
  obtain ⟨hlt, hget⟩ := List.getElem?_eq_some_iff.1 ((h.index v cycleStart).1 hindex)
  have hdrop : s.path.drop cycleStart = v :: s.path.drop (cycleStart + 1) := by
    rw [List.drop_eq_getElem_cons hlt, hget]
  have hchain : (s.path.drop cycleStart ++ [v]).IsChain g.Edge := by
    have hall := h.chain_append hstack
    rw [← List.take_append_drop cycleStart s.path, List.append_assoc] at hall
    exact (List.isChain_append.1 hall).2.1
  have hzip : (s.path.drop cycleStart).zip (s.path.drop (cycleStart + 1) ++ [v]) =
      (s.path.drop cycleStart ++ [v]).zip (s.path.drop cycleStart ++ [v]).tail := by
    have hlength : (s.path.drop cycleStart).length =
        (s.path.drop (cycleStart + 1) ++ [v]).length := by
      rw [hdrop, List.length_cons, List.length_append, List.length_singleton]
    have htail : (s.path.drop cycleStart ++ [v]).tail =
        s.path.drop (cycleStart + 1) ++ [v] ++ [] := by
      rw [hdrop, List.append_nil]
      rfl
    rw [htail, List.zip_append hlength, List.zip_nil_right, List.append_nil]
  obtain ⟨ranks, hranks, hsnd, hmems⟩ := exists_labels fun e he =>
    hg.rank e.1 e.2 (rel_of_mem_zip hchain e (hzip ▸ he))
  refine ⟨ranks, hranks, ⟨?_, ?_, hsnd.trans hzip, hmems⟩, ?_⟩
  · rintro rfl
    rw [hdrop] at hsnd
    cases hd : s.path.drop (cycleStart + 1) <;> simp [hd] at hsnd
  · rw [hdrop, List.getLast?_append]
    rfl
  · rw [hdrop] at hchain
    exact transGen_of_isChain hchain

end Step

/-! ### Runs -/

section Runs

variable {g : Graph ν ρ} {root : ν} {s : Search ν} {edges : List (ρ × ν × ν)} {nodes : Finset ν}

/-- What is left to do: the entries of the stack, and for every node that is not visited its
successors and its mark. -/
def workLeft (g : Graph ν ρ) (nodes : Finset ν) (s : Search ν) : ℕ :=
  s.stack.length + ∑ v ∈ nodes \ s.visited, ((g.successors v).length + 1)

/-- Between two keys: everything visited is done. -/
structure Idle (g : Graph ν ρ) (s : Search ν) : Prop where
  stack : s.stack = []
  path : s.path = []
  index : ∀ v, s.nodeIndices v = none
  closed : ∀ v ∈ s.visited, ∀ w, g.Edge v w → w ∈ s.visited
  acyclic : ∀ v ∈ s.visited, ¬ TransGen g.Edge v v

omit [DecidableEq ν] in
theorem Idle.inv (h : Idle g s) (root : ν) :
    Inv g root { s with stack := (root, false) :: s.stack } where
  frames := by
    rw [h.path, h.stack]
    exact .base (fun w hw => List.mem_singleton.1 hw) (Or.inl (List.mem_singleton.2 rfl))
  chain := h.path ▸ List.isChain_nil
  index v i := by
    change s.nodeIndices v = some i ↔ s.path[i]? = some v
    rw [h.index, h.path]
    simp
  visited v hv := by
    change v ∈ s.path at hv
    rw [h.path] at hv
    cases hv
  closed v hv w hedge := ⟨h.closed v hv.1 w hedge, by
    change w ∉ s.path
    rw [h.path]
    exact List.not_mem_nil⟩
  acyclic v hv := h.acyclic v hv.1

omit [DecidableEq ν] in
theorem Inv.idle (h : Inv g root s) (hstack : s.stack = []) : Idle g s ∧ root ∈ s.visited := by
  obtain ⟨hrev, hroot⟩ := (hstack ▸ h.frames).nil
  have hpath : s.path = [] := List.reverse_eq_nil_iff.1 hrev
  have hblack : ∀ v ∈ s.visited, s.Black v := by
    intro v hv
    refine ⟨hv, ?_⟩
    rw [hpath]
    exact List.not_mem_nil
  refine ⟨⟨hstack, hpath, fun v => ?_, fun v hv w hedge => (h.closed v (hblack v hv) w hedge).1,
    fun v hv => h.acyclic v (hblack v hv)⟩, hroot.1⟩
  cases hindex : s.nodeIndices v with
  | none => rfl
  | some i =>
    rw [h.index, hpath] at hindex
    cases hindex

/-- One round ends the search, goes on with less to do, or finds a cycle. -/
theorem step_spec (h : Inv g root s) (hg : HasEdges g edges) (hroot : root ∈ nodes)
    (hnodes : ∀ u v, g.Edge u v → v ∈ nodes) :
    (step g s = .done ∧ s.stack = []) ∨
      (∃ s', step g s = .next s' ∧ Inv g root s' ∧ workLeft g nodes s' < workLeft g nodes s ∧
        s.visited ⊆ s'.visited) ∨
      ∃ cyclePath ranks, step g s = .found cyclePath ranks ∧ ClosedWalk edges cyclePath ranks ∧
        ∃ v, TransGen g.Edge v v := by
  cases hstack : s.stack with
  | nil => exact Or.inl ⟨by rw [step, hstack], rfl⟩
  | cons entry stack =>
    obtain ⟨v, processed⟩ := entry
    cases processed with
    | true =>
      obtain ⟨path, hpath, hindex, hinv⟩ := h.close hstack
      refine Or.inr (Or.inl ⟨_, ?_, hinv, ?_, subset_rfl⟩)
      · have hne : s.path ≠ [] := by simp [hpath]
        have hlast : s.path.dropLast = path := by rw [hpath, List.dropLast_concat]
        simp only [step, hstack, if_neg hne, if_neg hindex, hlast]
      · simp only [workLeft, hstack, List.length_cons]
        omega
    | false =>
      cases hindex : s.nodeIndices v with
      | some cycleStart =>
        obtain ⟨ranks, hranks, hwalk, hcycle⟩ := h.found hg hstack hindex
        refine Or.inr (Or.inr ⟨_, ranks, ?_, hwalk, v, hcycle⟩)
        simp only [step, hstack, hindex, hranks]
      | none =>
        by_cases hvisited : v ∈ s.visited
        · refine Or.inr (Or.inl ⟨_, ?_, h.skip hstack hindex hvisited, ?_, subset_rfl⟩)
          · simp only [step, hstack, hindex, if_pos hvisited]
          · simp only [workLeft, hstack, List.length_cons]
            omega
        · refine Or.inr (Or.inl ⟨_, ?_, h.push hstack hindex hvisited, ?_, Finset.subset_insert _ _⟩)
          · simp only [step, hstack, hindex, if_neg hvisited]
          · have hmem : v ∈ nodes := by
              rcases (hstack ▸ h.frames).edge with ⟨-, rfl⟩ | ⟨u, -, -, hedge⟩
              · exact hroot
              · exact hnodes u v hedge
            have hsum := Finset.add_sum_erase (nodes \ s.visited)
              (fun w => (g.successors w).length + 1) (Finset.mem_sdiff.2 ⟨hmem, hvisited⟩)
            simp only [workLeft, hstack, List.length_cons, List.length_append, List.length_map,
              Finset.sdiff_insert]
            omega

/-- With enough rounds the search from a root ends, or finds a cycle. -/
theorem search_spec (hg : HasEdges g edges) (hroot : root ∈ nodes)
    (hnodes : ∀ u v, g.Edge u v → v ∈ nodes) (fuel : ℕ) (h : Inv g root s)
    (hfuel : workLeft g nodes s < fuel) :
    (∃ s', search g fuel s = some (.ok (.inl s')) ∧ Idle g s' ∧ root ∈ s'.visited ∧
        s.visited ⊆ s'.visited) ∨
      ∃ cyclePath ranks, search g fuel s = some (.ok (.inr (cyclePath, ranks))) ∧
        ClosedWalk edges cyclePath ranks ∧ ∃ v, TransGen g.Edge v v := by
  induction fuel generalizing s with
  | zero => omega
  | succ fuel ih =>
    rw [search]
    rcases step_spec h hg hroot hnodes with
      ⟨hstep, hstack⟩ | ⟨s', hstep, hinv, hwork, hsub⟩ | ⟨cyclePath, ranks, hstep, hfound⟩
    · obtain ⟨hidle, hmem⟩ := h.idle hstack
      rw [hstep]
      exact Or.inl ⟨s, rfl, hidle, hmem, subset_rfl⟩
    · rw [hstep]
      rcases ih hinv (by omega) with ⟨s'', hsearch, hidle, hmem, hsub'⟩ | hfound
      · exact Or.inl ⟨s'', hsearch, hidle, hmem, hsub.trans hsub'⟩
      · exact Or.inr hfound
    · rw [hstep]
      exact Or.inr ⟨cyclePath, ranks, rfl, hfound⟩

theorem searchAll_spec (hg : HasEdges g edges) (hnodes : ∀ u v, g.Edge u v → v ∈ nodes)
    {fuel : ℕ} (hfuel : 1 + ∑ v ∈ nodes, ((g.successors v).length + 1) < fuel) (keys : List ν)
    (hkeys : ∀ v ∈ keys, v ∈ nodes) (h : Idle g s) :
    (∃ s', searchAll g fuel keys s = some (.ok none) ∧ Idle g s' ∧ s.visited ⊆ s'.visited ∧
        ∀ v ∈ keys, v ∈ s'.visited) ∨
      ∃ cyclePath ranks, searchAll g fuel keys s = some (.ok (some (cyclePath, ranks))) ∧
        ClosedWalk edges cyclePath ranks ∧ ∃ v, TransGen g.Edge v v := by
  induction keys generalizing s with
  | nil => exact Or.inl ⟨s, rfl, h, subset_rfl, by simp⟩
  | cons node keys ih =>
    obtain ⟨hnode, hkeys⟩ := List.forall_mem_cons.1 hkeys
    rw [searchAll]
    by_cases hvisited : node ∈ s.visited
    · rw [if_pos hvisited]
      rcases ih hkeys h with ⟨s', hsearch, hidle, hsub, hall⟩ | hfound
      · exact Or.inl ⟨s', hsearch, hidle, hsub, List.forall_mem_cons.2 ⟨hsub hvisited, hall⟩⟩
      · exact Or.inr hfound
    · rw [if_neg hvisited]
      have hwork : workLeft g nodes { s with stack := (node, false) :: s.stack } < fuel := by
        have hle : ∑ v ∈ nodes \ s.visited, ((g.successors v).length + 1) ≤
            ∑ v ∈ nodes, ((g.successors v).length + 1) :=
          Finset.sum_le_sum_of_subset Finset.sdiff_subset
        simp only [workLeft, h.stack, List.length_singleton]
        omega
      rcases search_spec hg hnode hnodes fuel (h.inv node) hwork with
        ⟨s', hsearch, hidle, hmem, hsub⟩ | ⟨cyclePath, ranks, hsearch, hfound⟩
      · rw [hsearch]
        rcases ih hkeys hidle with ⟨s'', hsearch', hidle', hsub', hall⟩ | hfound
        · exact Or.inl ⟨s'', hsearch', hidle', hsub.trans hsub',
            List.forall_mem_cons.2 ⟨hsub' hmem, hall⟩⟩
        · exact Or.inr hfound
      · rw [hsearch]
        exact Or.inr ⟨cyclePath, ranks, rfl, hfound⟩

end Runs

/-- A cycle is returned exactly when consecutive nodes form one, and it is a closed walk with the
ranks of its edges. -/
theorem detectCycleInGraph_correct (ranksMap : List (ρ × List ν)) :
    ∃ fuel, ∀ fuel' ≥ fuel, ∃ result,
      detectCycleInGraph fuel' ranksMap = some (.ok result) ∧
      (result.isSome ↔ ∃ v, TransGen (Follows ranksMap) v v) ∧
      ∀ cyclePath ranks, result = some (cyclePath, ranks) →
        ClosedWalk (labelledEdges ranksMap) cyclePath ranks := by
  have hg := hasEdges_buildGraph ranksMap
  have hfollows : (buildGraph ranksMap).Edge = Follows ranksMap := by
    funext u v
    exact propext (hg.edge u v)
  set g := buildGraph ranksMap with hgraph
  let nodes : Finset ν := g.keys.toFinset ∪ ((labelledEdges ranksMap).map fun e => e.2.2).toFinset
  have hkeys : ∀ v ∈ g.keys, v ∈ nodes := fun v hv =>
    Finset.mem_union_left _ (List.mem_toFinset.2 hv)
  have hnodes : ∀ u v, g.Edge u v → v ∈ nodes := by
    intro u v hedge
    obtain ⟨rank, hmem⟩ := (hg.edge u v).1 hedge
    exact Finset.mem_union_right _ (List.mem_toFinset.2 (List.mem_map.2 ⟨_, hmem, rfl⟩))
  have hidle : Idle g (⟨[], ∅, [], fun _ => none⟩ : Search ν) :=
    ⟨rfl, rfl, fun _ => rfl, by simp, by simp⟩
  refine ⟨1 + ∑ v ∈ nodes, ((g.successors v).length + 1) + 1, fun fuel hfuel => ?_⟩
  rw [detectCycleInGraph, ← hgraph, ← hfollows]
  rcases searchAll_spec hg hnodes hfuel g.keys hkeys hidle with
    ⟨s, hsearch, hdone, -, hall⟩ | ⟨cyclePath, ranks, hsearch, hwalk, hcycle⟩
  · refine ⟨none, hsearch, iff_of_false (by simp) ?_, by simp⟩
    -- the first node of a cycle is a key
    rintro ⟨v, hcycle⟩
    obtain ⟨w, hedge, -⟩ := TransGen.head'_iff.1 hcycle
    exact hdone.acyclic v (hall v (hg.keys v w hedge)) hcycle
  · refine ⟨some (cyclePath, ranks), hsearch, iff_of_true rfl hcycle, ?_⟩
    intro cyclePath' ranks' heq
    cases heq
    exact hwalk

example : detectCycleInGraph 20 [("rank0", [0, 1, 2]), ("rank1", [2, 0])] =
    some (.ok (some ([0, 1, 2, 0], [("rank0", 0, 1), ("rank0", 1, 2), ("rank1", 2, 0)]))) := rfl

end HyperParallel.Pipeline.DetectCycle
