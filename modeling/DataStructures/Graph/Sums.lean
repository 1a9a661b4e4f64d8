import DataStructures.Graph.BellmanFord
import DataStructures.Lib.Trace

/-!
# The sums of Bellman-Ford

`graph_bellman_ford` once more, with a log of the sums `dist[src] + mat[src][dst]` that it
evaluates and of the distances that it stores.  A sum is logged before it is known to fit, so one
that overflows is the last in the log.  Without the log it is the function of the model
(`result_graphBellmanFord`).

A relaxation moves the largest distance by the weight of one edge at most, and there are no more
relaxations than edges in all the rounds (`Dist`); this holds between any two of them, whether a
cycle is negative or not.
-/

namespace DataStructures.Graph.Sums

open Lib Traced

/-- A number that is computed. -/
inductive Event
  | sum (x : Int)
  | distance (d : Int)

variable (g : GraphT)

/-- The relaxation of one edge. -/
def relaxEdge (src dst : g.Node) (acc : Bool × (g.Node → Int)) :
    Traced Event (Bool × (g.Node → Int)) :=
  if g.mat src dst = 0 then pure acc
  else if acc.2 src = intMax then pure acc
  else do
    access (.sum (acc.2 src + weight g src dst))
    let d ← lift (toInt (acc.2 src + weight g src dst))
    if acc.2 dst > d then do
      access (.distance d)
      return (true, Function.update acc.2 dst d)
    else return acc

/-- The relaxation of every edge. -/
def relaxRound (dist : g.Node → Int) : Traced Event (Bool × (g.Node → Int)) :=
  (List.finRange g.nodes).foldlM
    (fun acc src => (List.finRange g.nodes).foldlM (fun acc dst => relaxEdge g src dst acc) acc)
    (false, dist)

/-- The rounds, until nothing has been updated. -/
def relaxRounds : Nat → (g.Node → Int) → Traced Event (g.Node → Int)
  | 0, dist => pure dist
  | relax + 1, dist => do
      let (updated, dist) ← relaxRound g dist
      if updated then relaxRounds relax dist else return dist

/-- An edge could be relaxed. -/
def relaxable (dist : g.Node → Int) (src dst : g.Node) : Traced Event Bool :=
  if g.mat src dst = 0 then pure false
  else if dist src = intMax then pure false
  else do
    access (.sum (dist src + weight g src dst))
    let d ← lift (toInt (dist src + weight g src dst))
    return decide (dist dst > d)

/-- The search for an edge that could be relaxed. -/
def detectNegCycle (dist : g.Node → Int) : Traced Event Bool :=
  (List.finRange g.nodes).foldlM
    (fun found src => (List.finRange g.nodes).foldlM
      (fun found dst => if found = true then pure true else relaxable g dist src dst) found)
    false

/-- `graph_bellman_ford`. -/
def graphBellmanFord (s : Nat) (hasNegCycle : Bool) (outcomes : Outcomes) :
    Traced Event (Int × Bool × List Int) :=
  if hs : s < g.nodes then
    if !outcomes.first then pure (-2, hasNegCycle, [])
    else do
      access (.distance 0)
      let dist ← relaxRounds g (g.nodes - 1)
        (Function.update (fun _ => intMax) (⟨s, hs⟩ : g.Node) 0)
      let found ← detectNegCycle g dist
      return (0, found, (List.finRange g.nodes).map dist)
  else pure (-1, hasNegCycle, [])

/-! ### Without the log -/

variable {g} {s u v : g.Node} {b k n : Nat} {dist : g.Node → Int} {acc : Bool × (g.Node → Int)}

theorem result_relaxEdge (u v : g.Node) (acc : Bool × (g.Node → Int)) :
    (relaxEdge g u v acc).result = Graph.relaxEdge g u v acc := by
  simp [relaxEdge, Graph.relaxEdge, result_ite]

theorem result_relaxRound (dist : g.Node → Int) :
    (relaxRound g dist).result = Graph.relaxRound g dist := by
  simp only [relaxRound, Graph.relaxRound, result_foldlM, result_relaxEdge]

theorem result_relaxRounds (n : Nat) (dist : g.Node → Int) :
    (relaxRounds g n dist).result = Graph.relaxRounds g n dist := by
  induction n generalizing dist with
  | zero => rfl
  | succ n ih =>
    simp only [relaxRounds, Graph.relaxRounds, result_bind, result_relaxRound, result_ite, ih]
    rfl

theorem result_relaxable (dist : g.Node → Int) (u v : g.Node) :
    (relaxable g dist u v).result = Graph.relaxable g dist u v := by
  simp [relaxable, Graph.relaxable, result_ite]

theorem result_detectNegCycle (dist : g.Node → Int) :
    (detectNegCycle g dist).result = Graph.detectNegCycle g dist := by
  simp only [detectNegCycle, Graph.detectNegCycle, result_foldlM, result_ite, result_relaxable]
  rfl

/-- **The result** is that of the function. -/
theorem result_graphBellmanFord (g : GraphT) (s : Nat) (hasNegCycle : Bool) (outcomes : Outcomes) :
    (graphBellmanFord g s hasNegCycle outcomes).result =
      Graph.graphBellmanFord g s hasNegCycle outcomes := by
  rw [graphBellmanFord, Graph.graphBellmanFord]
  split
  · rw [result_ite]
    simp [result_relaxRounds, result_detectNegCycle]
  · rfl

/-! ### With the log -/

/-- A sum fits, and a distance is not taken for infinite. -/
def Event.InRange : Event → Prop
  | sum x => -2147483648 ≤ x ∧ x ≤ intMax
  | distance d => d ≠ intMax

/-- **One edge.** -/
theorem within_relaxEdge (h : Dist g s b acc.2) (hb : b < 2 ^ 20) (u v : g.Node) :
    Within Event.InRange (relaxEdge g u v acc) := by
  rw [relaxEdge]
  by_cases he : g.mat u v = 0
  · rw [if_pos he]
    exact within_pure acc
  by_cases hinf : acc.2 u = intMax
  · rw [if_neg he, if_pos hinf]
    exact within_pure acc
  rw [if_neg he, if_neg hinf, within_access_bind, within_lift_bind (h.toInt_add hb hinf v)]
  refine ⟨h.add_bounds hb hinf v, ?_⟩
  split
  · rw [within_access_bind]
    exact ⟨h.ne_intMax hb hinf (Int.le_refl _), within_pure _⟩
  · exact within_pure acc

/-- The edges from one node. -/
theorem within_relaxFrom (h : Relaxed g s dist b acc) (hb : b + g.nodes < 2 ^ 20) (u : g.Node) :
    Within Event.InRange
      ((List.finRange g.nodes).foldlM (fun acc v => relaxEdge g u v acc) acc) := by
  refine within_foldlM (fun done acc' => Relaxed g s dist (b + done.length) acc') h ?_
  intro done v todo hl acc₁ h₁
  have hlen := length_lt_of_finRange hl
  refine ⟨within_relaxEdge h₁.known (by omega) u v, fun acc₂ hrun => ?_⟩
  obtain ⟨acc₃, hrun', h₃, -⟩ := relaxEdge_spec h₁ (by omega) u v
  rw [result_relaxEdge, hrun', Option.some.injEq] at hrun
  rw [List.length_append, List.length_singleton, ← Nat.add_assoc, ← hrun]
  exact h₃

/-- **One round.** -/
theorem within_relaxRound (h : Dist g s b dist) (hb : b + g.nodes * g.nodes < 2 ^ 20) :
    Within Event.InRange (relaxRound g dist) := by
  have hstart : Relaxed g s dist (b + 0 * g.nodes) (false, dist) :=
    ⟨h.mono (Nat.le_add_right b _), fun v => Int.le_refl _, fun _ => rfl⟩
  refine within_foldlM (fun done acc => Relaxed g s dist (b + done.length * g.nodes) acc) hstart ?_
  intro done u todo hl acc₁ h₁
  have hcount : (done.length + 1) * g.nodes ≤ g.nodes * g.nodes :=
    Nat.mul_le_mul_right _ (length_lt_of_finRange hl)
  rw [Nat.add_mul, Nat.one_mul] at hcount
  refine ⟨within_relaxFrom h₁ (by omega) u, fun acc₂ hrun => ?_⟩
  obtain ⟨acc₃, hrun', h₃⟩ := relaxFrom_spec h₁ (by omega) u
  simp only [result_foldlM, result_relaxEdge] at hrun
  have hrelaxed := h₃.relaxed
  rw [List.length_finRange] at hrelaxed
  rw [List.length_append, List.length_singleton, Nat.add_mul, Nat.one_mul, ← Nat.add_assoc]
  exact Option.some.inj (hrun'.symm.trans hrun) ▸ hrelaxed

/-- **The rounds.** -/
theorem within_relaxRounds (n : Nat) (h : Dist g s b dist)
    (hb : b + n * (g.nodes * g.nodes) < 2 ^ 20) :
    Within Event.InRange (relaxRounds g n dist) := by
  induction n generalizing dist b with
  | zero => exact within_pure dist
  | succ n ih =>
    rw [Nat.add_mul, Nat.one_mul] at hb
    rw [relaxRounds, within_bind]
    refine ⟨within_relaxRound h (by omega), fun ⟨updated, dist₁⟩ hrun => ?_⟩
    obtain ⟨acc, hrun', h', -⟩ := relaxRound_spec h (by omega)
    rw [result_relaxRound, hrun', Option.some.injEq] at hrun
    subst hrun
    cases updated with
    | false => exact within_pure dist₁
    | true => exact ih h'.known (by omega)

/-- The search. -/
theorem within_detectNegCycle (h : Dist g s b dist) (hb : b < 2 ^ 20) :
    Within Event.InRange (detectNegCycle g dist) := by
  have hedge : ∀ u v, Within Event.InRange (relaxable g dist u v) := by
    intro u v
    rw [relaxable]
    by_cases he : g.mat u v = 0
    · rw [if_pos he]
      exact within_pure false
    by_cases hinf : dist u = intMax
    · rw [if_neg he, if_pos hinf]
      exact within_pure false
    rw [if_neg he, if_neg hinf, within_access_bind, within_lift_bind (h.toInt_add hb hinf v)]
    exact ⟨h.add_bounds hb hinf v, within_pure _⟩
  refine within_foldlM (fun _ _ => True) trivial (fun _ u _ _ _ _ => ⟨?_, fun _ _ => trivial⟩)
  refine within_foldlM (fun _ _ => True) trivial (fun _ v _ _ found _ => ⟨?_, fun _ _ => trivial⟩)
  split
  · exact within_pure true
  · exact hedge u v

theorem within_graphBellmanFord (g : GraphT) (s : Nat) (hasNegCycle : Bool) (outcomes : Outcomes) :
    Within Event.InRange (graphBellmanFord g s hasNegCycle outcomes) := by
  rw [graphBellmanFord]
  by_cases hs : s < g.nodes
  · rw [dif_pos hs]
    cases hok : outcomes.first with
    | false => exact within_pure _
    | true =>
      have hrounds := relaxations_lt g
      obtain ⟨dist, found, hrun, -, hd, -⟩ := graphBellmanFord_run g ⟨s, hs⟩ hasNegCycle hok
      rw [Bool.not_true, if_neg Bool.false_ne_true, within_access_bind, within_bind]
      have hzero : (0 : Int) ≠ intMax := by decide
      refine ⟨hzero, within_relaxRounds _ (dist_init g ⟨s, hs⟩).1 (by omega), fun dist₁ h₁ => ?_⟩
      rw [result_relaxRounds, hrun, Option.some.injEq] at h₁
      subst h₁
      rw [within_bind]
      exact ⟨within_detectNegCycle hd hrounds, fun _ _ => within_pure _⟩
  · rw [dif_neg hs]
    exact within_pure _

/-- **No sum overflows and no distance is `INT_MAX`.**  Whatever the weights and the source are,
`graph_bellman_ford` returns, every sum that it evaluates in the rounds and in the search can be
represented, and no distance that it stores is the one that stands for infinite. -/
theorem graphBellmanFord_in_range (g : GraphT) (s : Nat) (hasNegCycle : Bool)
    (outcomes : Outcomes) :
    (graphBellmanFord g s hasNegCycle outcomes).result =
      Graph.graphBellmanFord g s hasNegCycle outcomes ∧
    (graphBellmanFord g s hasNegCycle outcomes).result ≠ none ∧
    (∀ x, .sum x ∈ (graphBellmanFord g s hasNegCycle outcomes).log →
      -2147483648 ≤ x ∧ x ≤ 2147483647) ∧
    (∀ d, .distance d ∈ (graphBellmanFord g s hasNegCycle outcomes).log → d ≠ intMax) := by
  have hwithin := within_graphBellmanFord g s hasNegCycle outcomes
  have hresult := result_graphBellmanFord g s hasNegCycle outcomes
  refine ⟨hresult, ?_, fun x hx => hwithin _ hx, fun d hd => hwithin _ hd⟩
  rw [hresult]
  by_cases hs : s < g.nodes
  · cases hok : outcomes.first with
    | false =>
      rw [Graph.graphBellmanFord, dif_pos hs, hok]
      exact Option.some_ne_none _
    | true =>
      obtain ⟨dist, found, -, hrun, -⟩ := graphBellmanFord_run g ⟨s, hs⟩ hasNegCycle hok
      rw [hrun]
      exact Option.some_ne_none _
  · rw [Graph.graphBellmanFord, dif_neg hs]
    exact Option.some_ne_none _

end DataStructures.Graph.Sums
