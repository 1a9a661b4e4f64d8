import DataStructures.Lib.CInt
import DataStructures.Queue.Model
import Mathlib.Data.List.FinRange

/-!
# `graph/graph.c`

A graph is its adjacency matrix, of at most 50 nodes; an entry is a `char` of eight bits with a
sign, and 0 is no edge.  The marks (`visited`) are handed through the functions; a loop over the
nodes goes through `List.finRange`.  `none` as the result means that an `int` has overflown, an
array has been left, or the rounds were too few.

The queue has pointers into `nodes`, which stand for the nodes.  The graph itself is not NULL.
What the functions print is a list.
-/

namespace DataStructures.Graph

open Lib Queue

/-- `graph_t`, without the marks. -/
structure GraphT where
  nodes : Nat
  nodes_le : nodes ≤ 50
  mat : Fin nodes → Fin nodes → Int8

abbrev GraphT.Node (g : GraphT) : Type := Fin g.nodes

/-- The marks of a graph. -/
abbrev Marks (g : GraphT) : Type := g.Node → Bool

variable (g : GraphT)

/-- The weight of an edge, as an `int`. -/
def weight (s d : g.Node) : Int := (g.mat s d).toInt

/-- There is an edge. -/
def Edge (s d : g.Node) : Prop := g.mat s d ≠ 0

instance : DecidableRel (Edge g) := fun s d => inferInstanceAs (Decidable (g.mat s d ≠ 0))

/-- No mark is left. -/
def reset : Marks g := fun _ => false

variable {g} in
/-- `visited[i] = 1`. -/
def mark (visited : Marks g) (i : g.Node) : Marks g := Function.update visited i true

variable {g} in
/-- `visited[i] = 0`. -/
def unmark (visited : Marks g) (i : g.Node) : Marks g := Function.update visited i false

/-! ### Creation and edges -/

/-- `graph_create`: the object, the marks, the array of rows, and the rows. -/
def graphCreate (nodes : Nat) (outcomes : Outcomes) : Option GraphT :=
  if h : nodes ≤ 50 then
    if (List.range (nodes + 3)).all outcomes then some ⟨nodes, h, fun _ _ => 0⟩ else none
  else none

/-- `graph_add_directed_wedge`. -/
def graphAddDirectedWedge (s d : Nat) (w : Int8) : Int × GraphT :=
  if s < g.nodes ∧ d < g.nodes then
    (0, { g with mat := fun i j => if i.val = s ∧ j.val = d then w else g.mat i j })
  else (-1, g)

/-- `graph_add_undirected_wedge`. -/
def graphAddUndirectedWedge (s d : Nat) (w : Int8) : Int × GraphT :=
  if s < g.nodes ∧ d < g.nodes then
    (0, { g with
      mat := fun i j =>
        if i.val = d ∧ j.val = s then w
        else if i.val = s ∧ j.val = d then w
        else g.mat i j })
  else (-1, g)

/-- `graph_add_directed_edge`. -/
def graphAddDirectedEdge (s d : Nat) : Int × GraphT := graphAddDirectedWedge g s d 1

/-- `graph_add_undirected_edge`. -/
def graphAddUndirectedEdge (s d : Nat) : Int × GraphT := graphAddUndirectedWedge g s d 1

/-! ### Breadth first -/

/-- The loop over the neighbours that are not marked. -/
def enqueueNeighbours (curr : g.Node) :
    List g.Node → QueueT g.Node → Marks g → Int × QueueT g.Node × Marks g
  | [], queue, visited => (0, queue, visited)
  | i :: is, queue, visited =>
      if g.mat curr i ≠ 0 ∧ visited i = false then
        let visited := mark visited i
        let (rv, queue) := queueEnqueue queue (some i)
        if rv ≠ 0 then (-6, queue, visited) else enqueueNeighbours curr is queue visited
      else enqueueNeighbours curr is queue visited

/-- The loop of `graph_bfs`. -/
def bfsLoop : Nat → QueueT g.Node → Marks g → Option (Int × List g.Node × Marks g)
  | 0, _, _ => none
  | rounds + 1, queue, visited =>
      if queueIsEmpty queue then some (0, [], visited)
      else do
        let (elem, queue) ← queueDequeue queue
        match elem with
        | none => return (-5, [], visited)
        | some curr => do
            let (rv, queue, visited) :=
              enqueueNeighbours g curr (List.finRange g.nodes) queue visited
            if rv ≠ 0 then return (rv, [curr], visited)
            let (rv, printed, visited) ← bfsLoop rounds queue visited
            return (rv, curr :: printed, visited)

/-- `graph_bfs`, with the nodes that it prints. -/
def graphBfs (visited : Marks g) (s : Nat) (outcomes : Outcomes) :
    Option (Int × List g.Node × Marks g) :=
  if hs : s < g.nodes then
    if !outcomes.first then some (-2, [], visited)
    else
      match queueCreate g.Node g.nodes outcomes.rest with
      | (none, _) => some (-3, [], reset g)
      | (some queue, _) =>
          let visited := mark (reset g) ⟨s, hs⟩
          let (rv, queue) := queueEnqueue queue (some ⟨s, hs⟩)
          if rv ≠ 0 then some (-4, [], visited) else bfsLoop g (g.nodes + 1) queue visited
  else some (-1, [], visited)

/-- The inner loop of `graph_node_level`: what the queue and the marks are after it, or what is
returned. -/
def levelRound (s : Nat) : Nat → QueueT g.Node → Marks g →
    Option (Except (Int × Marks g) (QueueT g.Node × Marks g))
  | 0, queue, visited => some (.ok (queue, visited))
  | qSize + 1, queue, visited => do
      let (elem, queue) ← queueDequeue queue
      match elem with
      | none => return .error (-5, visited)
      | some curr =>
          if curr.val = s then return .error (0, visited)
          let (rv, queue, visited) :=
            enqueueNeighbours g curr (List.finRange g.nodes) queue visited
          if rv ≠ 0 then return .error (rv, visited)
          levelRound s qSize queue visited

/-- The outer loop of `graph_node_level`. -/
def levelLoop (s : Nat) : Nat → QueueT g.Node → Marks g → Int8 → Option (Int × Int8 × Marks g)
  | 0, _, _, _ => none
  | rounds + 1, queue, visited, level =>
      if queueIsEmpty queue then some (0, -1, visited)
      else do
        match ← levelRound g s (queueSize queue) queue visited with
        | .error (rv, visited) => return (rv, level, visited)
        | .ok (queue, visited) => levelLoop s rounds queue visited (level + 1)

/-- `graph_node_level`, with the level that it leaves. -/
def graphNodeLevel (visited : Marks g) (s : Nat) (level : Int8) (outcomes : Outcomes) :
    Option (Int × Int8 × Marks g) :=
  if !outcomes.first then some (-2, level, visited)
  else
    match queueCreate g.Node g.nodes outcomes.rest with
    | (none, _) => some (-3, level, reset g)
    | (some queue, _) =>
        if h0 : 0 < g.nodes then
          let visited := mark (reset g) ⟨0, h0⟩
          let (rv, queue) := queueEnqueue queue (some ⟨0, h0⟩)
          if rv ≠ 0 then some (-4, 0, visited) else levelLoop g s (g.nodes + 1) queue visited 0
        else none

/-! ### Depth first -/

/-- `__graph_dfs`, with the nodes that it prints. -/
def graphDfsHelper : Nat → Marks g → g.Node → Option (List g.Node × Marks g)
  | 0, _, _ => none
  | rounds + 1, visited, s =>
      (List.finRange g.nodes).foldlM
        (fun (acc : List g.Node × Marks g) i =>
          if g.mat s i ≠ 0 ∧ acc.2 i = false then
            (graphDfsHelper rounds acc.2 i).map (fun r => (acc.1 ++ r.1, r.2))
          else some acc)
        ([s], mark visited s)

/-- `graph_dfs`. -/
def graphDfs (visited : Marks g) (s : Nat) : Option (Int × List g.Node × Marks g) :=
  if hs : s < g.nodes then (graphDfsHelper g g.nodes (reset g) ⟨s, hs⟩).map (fun r => (0, r))
  else some (-1, [], visited)

/-- `__graph_detect_cycle`; the rest of the loop is passed over once a cycle is found. -/
def graphDetectCycleHelper : Nat → Marks g → g.Node → Int → Option (Bool × Marks g)
  | 0, _, _, _ => none
  | rounds + 1, visited, s, p =>
      (List.finRange g.nodes).foldlM
        (fun (acc : Bool × Marks g) i =>
          if acc.1 = true then some acc
          else if g.mat s i = 0 then some acc
          else if acc.2 i = false then graphDetectCycleHelper rounds acc.2 i s.val
          else some (decide ((i.val : Int) ≠ p), acc.2))
        (false, mark visited s)

/-- `graph_detect_cycle`, with what it says. -/
def graphDetectCycle : Option (Int × Bool × Marks g) := do
  let (hasCycle, visited) ← (List.finRange g.nodes).foldlM
    (fun (acc : Bool × Marks g) i =>
      if acc.1 = true then some acc
      else if acc.2 i = true then some acc
      else graphDetectCycleHelper g g.nodes acc.2 i (-1))
    (false, reset g)
  return (0, hasCycle, visited)

/-- `__graph_max_length`, with the maximum that it leaves. -/
def graphMaxLengthHelper : Nat → Marks g → g.Node → Int → Int → Option (Int × Marks g)
  | 0, _, _, _, _ => none
  | rounds + 1, visited, s, currLen, maxLen =>
      (List.finRange g.nodes).foldlM
        (fun (acc : Int × Marks g) i =>
          if g.mat s i ≠ 0 ∧ acc.2 i = false then do
            let len ← toInt (currLen + weight g s i)
            graphMaxLengthHelper rounds acc.2 i len acc.1
          else some acc)
        (if currLen > maxLen then currLen else maxLen, mark visited s)

/-- `graph_max_length`, with the maximum. -/
def graphMaxLength (visited : Marks g) : Option (Int × Int × Marks g) := do
  let (maxLen, visited) ← (List.finRange g.nodes).foldlM
    (fun (acc : Int × Marks g) i => graphMaxLengthHelper g g.nodes (reset g) i 0 acc.1)
    (-1, visited)
  return (0, maxLen, visited)

/-- `__graph_nlength_cycles`, with the number that it leaves. -/
def graphNlengthCyclesHelper (src : g.Node) :
    Nat → Marks g → g.Node → Int → Int → Option (Int × Marks g)
  | 0, _, _, _, _ => none
  | rounds + 1, visited, curr, len, cyclesNo => do
      let visited := mark visited curr
      if len = 0 then
        let visited := unmark visited curr
        if g.mat curr src ≠ 0 then
          return (← toInt (cyclesNo + 1), visited)
        else return (cyclesNo, visited)
      let (cyclesNo, visited) ← (List.finRange g.nodes).foldlM
        (fun (acc : Int × Marks g) i =>
          if acc.2 i = false ∧ g.mat curr i ≠ 0 then
            graphNlengthCyclesHelper src rounds acc.2 i (len - 1) acc.1
          else some acc)
        (cyclesNo, visited)
      return (cyclesNo, unmark visited curr)

/-- `graph_nlength_cycles`; with a length below 1 the loop leaves the arrays. -/
def graphNlengthCycles (n : Int) : Option Int :=
  if n < 1 then none
  else do
    let (cyclesNo, _) ← ((List.finRange g.nodes).filter
        (fun i => decide ((i.val : Int) < g.nodes - (n - 1)))).foldlM
      (fun (acc : Int × Marks g) i => do
        let (cyclesNo, visited) ← graphNlengthCyclesHelper g i g.nodes acc.2 i (n - 1) acc.1
        return (cyclesNo, mark visited i))
      (0, reset g)
    return cyclesNo / 2

/-! ### Bellman-Ford -/

/-- The relaxation of one edge. -/
def relaxEdge (src dst : g.Node) (acc : Bool × (g.Node → Int)) :
    Option (Bool × (g.Node → Int)) :=
  if g.mat src dst = 0 then some acc
  else if acc.2 src = intMax then some acc
  else do
    let d ← toInt (acc.2 src + weight g src dst)
    if acc.2 dst > d then return (true, Function.update acc.2 dst d) else return acc

/-- The relaxation of every edge. -/
def relaxRound (dist : g.Node → Int) : Option (Bool × (g.Node → Int)) :=
  (List.finRange g.nodes).foldlM
    (fun acc src => (List.finRange g.nodes).foldlM (fun acc dst => relaxEdge g src dst acc) acc)
    (false, dist)

/-- The rounds, until nothing has been updated. -/
def relaxRounds : Nat → (g.Node → Int) → Option (g.Node → Int)
  | 0, dist => some dist
  | relax + 1, dist => do
      let (updated, dist) ← relaxRound g dist
      if updated then relaxRounds relax dist else return dist

/-- An edge could be relaxed. -/
def relaxable (dist : g.Node → Int) (src dst : g.Node) : Option Bool :=
  if g.mat src dst = 0 then some false
  else if dist src = intMax then some false
  else do
    let d ← toInt (dist src + weight g src dst)
    return decide (dist dst > d)

/-- The search for an edge that could be relaxed. -/
def detectNegCycle (dist : g.Node → Int) : Option Bool :=
  (List.finRange g.nodes).foldlM
    (fun found src => (List.finRange g.nodes).foldlM
      (fun found dst => if found = true then some true else relaxable g dist src dst) found)
    false

/-- `graph_bellman_ford`, with what it says of negative cycles and the distances that it dumps. -/
def graphBellmanFord (s : Nat) (hasNegCycle : Bool) (outcomes : Outcomes) :
    Option (Int × Bool × List Int) :=
  if hs : s < g.nodes then
    if !outcomes.first then some (-2, hasNegCycle, [])
    else do
      let dist ← relaxRounds g (g.nodes - 1)
        (Function.update (fun _ => intMax) (⟨s, hs⟩ : g.Node) 0)
      let found ← detectNegCycle g dist
      return (0, found, (List.finRange g.nodes).map dist)
  else some (-1, hasNegCycle, [])

end DataStructures.Graph
