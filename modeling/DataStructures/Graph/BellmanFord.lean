import DataStructures.Graph.Marks
import DataStructures.Lib.Loops
import DataStructures.Lib.Walks
import Mathlib.Algebra.Group.Nat.Defs
import Mathlib.Order.Bounds.Defs

/-!
# Bellman-Ford

`Dist g s b dist`: after at most `b` relaxations every distance that is not `INT_MAX` is the weight
of a walk from `s`.  `Closed g dist`: no edge can be relaxed.  `Below g s k dist`: no walk of at
most `k` edges is lighter than the distance.

* `relaxRound_spec`: a round goes from the walks of `k` edges to those of `k + 1`.
* `relaxRounds_spec`: after the rounds no edge can be relaxed, or all simple walks are covered.
* `graphBellmanFord_correct`.
-/

namespace DataStructures.Graph

open Lib Walks

variable {g : GraphT} {s u v : g.Node} {b k : Nat} {dist dist' : g.Node → Int} {l : List g.Node}

/-- The distances that are known are weights of walks. -/
structure Dist (g : GraphT) (s : g.Node) (b : Nat) (dist : g.Node → Int) : Prop where
  sound : ∀ v, dist v ≠ intMax → ∃ l, Walk (Edge g) s l v ∧ Walks.weight (weight g) s l = dist v
  bound : ∀ v, dist v ≠ intMax → -(128 * b) ≤ dist v ∧ dist v ≤ 128 * b

/-- No edge can be relaxed. -/
def Closed (g : GraphT) (dist : g.Node → Int) : Prop :=
  ∀ u v, Edge g u v → dist u ≠ intMax → dist v ≤ dist u + weight g u v

/-- No walk of at most `k` edges is lighter. -/
def Below (g : GraphT) (s : g.Node) (k : Nat) (dist : g.Node → Int) : Prop :=
  ∀ l v, Walk (Edge g) s l v → l.length ≤ k →
    dist v ≠ intMax ∧ dist v ≤ Walks.weight (weight g) s l

theorem Dist.le_intMax (h : Dist g s b dist) (hb : b < 2 ^ 20) (v : g.Node) : dist v ≤ intMax := by
  by_cases hv : dist v = intMax
  · exact Int.le_of_eq hv
  · have hbv := h.bound v hv
    unfold intMax
    omega

/-- A distance that is at most a sum is not `INT_MAX`. -/
theorem Dist.ne_intMax (h : Dist g s b dist) (hb : b < 2 ^ 20) (hu : dist u ≠ intMax) {d : Int}
    (hd : d ≤ dist u + weight g u v) : d ≠ intMax := by
  have hbu := h.bound u hu
  have hw := weight_bounds u v
  unfold intMax
  omega

theorem Dist.mono {b' : Nat} (h : Dist g s b dist) (hb : b ≤ b') : Dist g s b' dist := by
  refine ⟨h.sound, fun v hv => ?_⟩
  have hbv := h.bound v hv
  omega

/-- The sum does not overflow. -/
theorem Dist.add_bounds (h : Dist g s b dist) (hb : b < 2 ^ 20) (hu : dist u ≠ intMax)
    (v : g.Node) :
    -2147483648 ≤ dist u + weight g u v ∧ dist u + weight g u v ≤ intMax := by
  have hbu := h.bound u hu
  have hw := weight_bounds u v
  unfold intMax
  omega

theorem Dist.toInt_add (h : Dist g s b dist) (hb : b < 2 ^ 20) (hu : dist u ≠ intMax)
    (v : g.Node) : toInt (dist u + weight g u v) = some (dist u + weight g u v) :=
  toInt_of (h.add_bounds hb hu v)

/-! ### Relaxation -/

/-- What has become of the distances in a round that began with `dist`. -/
structure Relaxed (g : GraphT) (s : g.Node) (dist : g.Node → Int) (b : Nat)
    (acc : Bool × (g.Node → Int)) : Prop where
  known : Dist g s b acc.2
  le : ∀ v, acc.2 v ≤ dist v
  same : acc.1 = false → acc.2 = dist

/-- **One edge.** -/
theorem relaxEdge_spec {acc : Bool × (g.Node → Int)} (h : Relaxed g s dist b acc)
    (hb : b < 2 ^ 20) (src dst : g.Node) : ∃ acc', relaxEdge g src dst acc = some acc' ∧
      Relaxed g s dist (b + 1) acc' ∧ (∀ v, acc'.2 v ≤ acc.2 v) ∧
      (Edge g src dst → acc.2 src ≠ intMax → acc'.2 dst ≤ acc.2 src + weight g src dst) := by
  have hkeep : Relaxed g s dist (b + 1) acc := ⟨h.known.mono (Nat.le_succ b), h.le, h.same⟩
  rw [relaxEdge]
  by_cases he : g.mat src dst = 0
  · rw [if_pos he]
    exact ⟨acc, rfl, hkeep, fun v => Int.le_refl _, fun hne => absurd he hne⟩
  by_cases hinf : acc.2 src = intMax
  · rw [if_neg he, if_pos hinf]
    exact ⟨acc, rfl, hkeep, fun v => Int.le_refl _, fun _ hne => absurd hinf hne⟩
  rw [if_neg he, if_neg hinf, h.known.toInt_add hb hinf, Option.bind_eq_bind, Option.bind_some]
  by_cases hgt : acc.2 dst > acc.2 src + weight g src dst
  · rw [if_pos hgt]
    have hle : ∀ v, Function.update acc.2 dst (acc.2 src + weight g src dst) v ≤ acc.2 v := by
      intro v
      rcases eq_or_ne v dst with rfl | hv
      · rw [Function.update_self]
        omega
      · rw [Function.update_of_ne hv]
    refine ⟨_, rfl, ⟨⟨fun v hv => ?_, fun v hv => ?_⟩, fun v => Int.le_trans (hle v) (h.le v),
      fun hf => Bool.noConfusion hf⟩, hle, fun _ _ => ?_⟩
    · dsimp only at hv ⊢
      rcases eq_or_ne v dst with rfl | hne
      · obtain ⟨l, hl, hlw⟩ := h.known.sound src hinf
        rw [Function.update_self]
        exact ⟨l ++ [v], hl.concat he, by rw [weight_concat hl, hlw]⟩
      · rw [Function.update_of_ne hne] at hv ⊢
        exact h.known.sound v hv
    · dsimp only at hv ⊢
      rcases eq_or_ne v dst with rfl | hne
      · have hsrc := h.known.bound src hinf
        have hw := weight_bounds src v
        rw [Function.update_self]
        omega
      · rw [Function.update_of_ne hne] at hv ⊢
        exact hkeep.known.bound v hv
    · dsimp only
      rw [Function.update_self]
  · rw [if_neg hgt]
    exact ⟨acc, rfl, hkeep, fun v => Int.le_refl _, fun _ _ => Int.not_lt.mp hgt⟩

/-- In the loop over the edges from `src`, which began with `acc`. -/
structure RelaxedFrom (g : GraphT) (s : g.Node) (dist : g.Node → Int) (b : Nat) (src : g.Node)
    (acc : Bool × (g.Node → Int)) (done : List g.Node) (acc' : Bool × (g.Node → Int)) : Prop where
  relaxed : Relaxed g s dist (b + done.length) acc'
  le : ∀ v, acc'.2 v ≤ acc.2 v
  edges : ∀ v ∈ done, Edge g src v → acc.2 src ≠ intMax → acc'.2 v ≤ acc.2 src + weight g src v

/-- In the loop over the sources. -/
structure RelaxedAll (g : GraphT) (s : g.Node) (dist : g.Node → Int) (b : Nat) (done : List g.Node)
    (acc : Bool × (g.Node → Int)) : Prop where
  relaxed : Relaxed g s dist (b + done.length * g.nodes) acc
  edges : ∀ u ∈ done, ∀ v, Edge g u v → dist u ≠ intMax → acc.2 v ≤ dist u + weight g u v

/-- The edges from one node. -/
theorem relaxFrom_spec {acc : Bool × (g.Node → Int)} (h : Relaxed g s dist b acc)
    (hb : b + g.nodes < 2 ^ 20) (src : g.Node) :
    ∃ acc', (List.finRange g.nodes).foldlM (fun acc dst => relaxEdge g src dst acc) acc = some acc' ∧
      RelaxedFrom g s dist b src acc (List.finRange g.nodes) acc' := by
  refine loop_spec (RelaxedFrom g s dist b src acc)
    ⟨h, fun v => Int.le_refl _, fun v hv => absurd hv List.not_mem_nil⟩ ?_
  intro done dst todo hl acc₁ h₁
  have hlen := length_lt_of_finRange hl
  obtain ⟨acc₂, hrun, h₂, hle₂, hnew⟩ := relaxEdge_spec h₁.relaxed (by omega) src dst
  refine ⟨acc₂, hrun, ?_, fun v => Int.le_trans (hle₂ v) (h₁.le v), ?_⟩
  · rw [List.length_append, List.length_singleton, ← Nat.add_assoc]
    exact h₂
  · refine forall_mem_concat (fun v hv he hinf => ?_) fun he hinf => ?_
    · exact Int.le_trans (hle₂ v) (h₁.edges v hv he hinf)
    · -- the distance of the source may have become smaller in this very loop
      have hmax := h.known.le_intMax (by omega) src
      have hsrc := h₁.le src
      have hfin : acc₁.2 src ≠ intMax := by omega
      have hdst := hnew he hfin
      omega

/-- **One round.** -/
theorem relaxRound_spec (h : Dist g s b dist) (hb : b + g.nodes * g.nodes < 2 ^ 20) :
    ∃ acc, relaxRound g dist = some acc ∧ Relaxed g s dist (b + g.nodes * g.nodes) acc ∧
      ∀ u v, Edge g u v → dist u ≠ intMax → acc.2 v ≤ dist u + weight g u v := by
  have hstart : RelaxedAll g s dist b [] (false, dist) :=
    ⟨⟨h.mono (Nat.le_add_right b _), fun v => Int.le_refl _, fun _ => rfl⟩,
      fun u hu => absurd hu List.not_mem_nil⟩
  have hloop := loop_spec (l := List.finRange g.nodes) (RelaxedAll g s dist b) hstart
    (f := fun acc src => (List.finRange g.nodes).foldlM (fun acc dst => relaxEdge g src dst acc) acc)
  obtain ⟨acc, hrun, hacc, hedge⟩ := hloop (by
    intro done src todo hl acc₁ h₁
    have hcount : (done.length + 1) * g.nodes ≤ g.nodes * g.nodes :=
      Nat.mul_le_mul_right _ (length_lt_of_finRange hl)
    rw [Nat.add_mul, Nat.one_mul] at hcount
    obtain ⟨acc₂, hrun, h₂⟩ := relaxFrom_spec h₁.relaxed (by omega) src
    refine ⟨acc₂, hrun, ?_, forall_mem_concat (fun u hu v he hinf => ?_) fun v he hinf => ?_⟩
    · have hrelaxed := h₂.relaxed
      rw [List.length_finRange] at hrelaxed
      rw [List.length_append, List.length_singleton, Nat.add_mul, Nat.one_mul, ← Nat.add_assoc]
      exact hrelaxed
    · exact Int.le_trans (h₂.le v) (h₁.edges u hu v he hinf)
    · have hmax := h.le_intMax (by omega) src
      have hsrc := h₁.relaxed.le src
      have hfin : acc₁.2 src ≠ intMax := by omega
      have hdst := h₂.edges v (List.mem_finRange v) he hfin
      omega)
  rw [List.length_finRange] at hacc
  exact ⟨acc, hrun, hacc, fun u v => hedge u (List.mem_finRange u) v⟩

/-- A round covers walks of one more edge. -/
theorem Below.succ (h : Below g s k dist) (hd : Dist g s b dist) (hb : b < 2 ^ 20)
    (hle : ∀ v, dist' v ≤ dist v)
    (hedge : ∀ u v, Edge g u v → dist u ≠ intMax → dist' v ≤ dist u + weight g u v) :
    Below g s (k + 1) dist' := by
  intro l v hl hlen
  by_cases hk : l.length ≤ k
  · obtain ⟨hinf, hw⟩ := h l v hl hk
    have hmax := hd.le_intMax hb v
    have hv := hle v
    exact ⟨by omega, Int.le_trans hv hw⟩
  · have hne : l ≠ [] := by
      rintro rfl
      exact hk (Nat.zero_le k)
    obtain ⟨l', x, rfl, hx, he⟩ := hl.last_edge hne
    rw [List.length_append, List.length_singleton] at hlen
    obtain ⟨hinf, hw⟩ := h l' x hx (by omega)
    have hv := hedge x v he hinf
    refine ⟨hd.ne_intMax hb hinf hv, ?_⟩
    rw [weight_concat hx]
    omega

/-- **The rounds**: at the end no edge can be relaxed, or the walks of so many more edges are
covered. -/
theorem relaxRounds_spec (n : Nat) (h : Dist g s b dist) (hbelow : Below g s k dist)
    (hb : b + n * (g.nodes * g.nodes) < 2 ^ 20) : ∃ dist', relaxRounds g n dist = some dist' ∧
      Dist g s (b + n * (g.nodes * g.nodes)) dist' ∧ dist' s ≤ dist s ∧
      (Closed g dist' ∨ Below g s (k + n) dist') := by
  induction n generalizing dist b k with
  | zero =>
    rw [Nat.zero_mul]
    exact ⟨dist, rfl, h, Int.le_refl _, Or.inr hbelow⟩
  | succ n ih =>
    rw [Nat.add_mul, Nat.one_mul] at hb ⊢
    obtain ⟨⟨updated, dist₁⟩, hrun, h₁, hedge⟩ := relaxRound_spec h (by omega)
    rw [relaxRounds, hrun, Option.bind_eq_bind, Option.bind_some]
    cases updated with
    | false =>
      -- nothing has changed
      obtain rfl : dist₁ = dist := h₁.same rfl
      exact ⟨dist₁, rfl, h.mono (Nat.le_add_right b _), Int.le_refl _, Or.inl hedge⟩
    | true =>
      have hbelow₁ := hbelow.succ h (by omega) h₁.le hedge
      obtain ⟨dist', hrun', h', hs, hcase⟩ := ih h₁.known hbelow₁ (by omega)
      rw [Nat.add_assoc b, Nat.add_comm (g.nodes * g.nodes)] at h'
      rw [Nat.add_assoc k, Nat.add_comm 1] at hcase
      exact ⟨dist', hrun', h', Int.le_trans hs (h₁.le s), hcase⟩

/-! ### The search for negative cycles -/

/-- A walk is not lighter than what the distances say. -/
theorem Closed.walk (hc : Closed g dist) (h : Dist g s b dist) (hb : b < 2 ^ 20)
    (hl : Walk (Edge g) u l v) (hu : dist u ≠ intMax) :
    dist v ≠ intMax ∧ dist v ≤ dist u + Walks.weight (weight g) u l := by
  induction l generalizing u with
  | nil =>
    obtain rfl : u = v := hl
    exact ⟨hu, Int.le_of_eq (Int.add_zero _).symm⟩
  | cons x l ih =>
    have hx := hc u x hl.1 hu
    obtain ⟨hinf, hle⟩ := ih hl.2 (h.ne_intMax hb hu hx)
    rw [Walks.weight]
    exact ⟨hinf, by omega⟩

/-- The edge can be relaxed. -/
def Relaxable (g : GraphT) (dist : g.Node → Int) (u v : g.Node) : Prop :=
  Edge g u v ∧ dist u ≠ intMax ∧ dist u + weight g u v < dist v

instance : Decidable (Relaxable g dist u v) := inferInstanceAs (Decidable (_ ∧ _ ∧ _))

theorem closed_iff : Closed g dist ↔ ¬ ∃ u v, Relaxable g dist u v := by
  refine ⟨?_, fun hno u v he hinf => ?_⟩
  · rintro hc ⟨u, v, he, hinf, hlt⟩
    exact absurd (hc u v he hinf) (Int.not_le.mpr hlt)
  · by_contra hlt
    exact hno ⟨u, v, he, hinf, Int.not_le.mp hlt⟩

theorem relaxable_spec (h : Dist g s b dist) (hb : b < 2 ^ 20) (u v : g.Node) :
    relaxable g dist u v = some (decide (Relaxable g dist u v)) := by
  rw [relaxable]
  by_cases he : g.mat u v = 0
  · rw [if_pos he, decide_eq_false fun hall => hall.1 he]
  by_cases hinf : dist u = intMax
  · rw [if_neg he, if_pos hinf, decide_eq_false fun hall => hall.2.1 hinf]
  rw [if_neg he, if_neg hinf, h.toInt_add hb hinf]
  exact congrArg some (decide_eq_decide.mpr ⟨fun hlt => ⟨he, hinf, hlt⟩, fun hall => hall.2.2⟩)

/-- The search among the edges from one node. -/
theorem detectFrom_spec (h : Dist g s b dist) (hb : b < 2 ^ 20) (u : g.Node) (found : Bool) :
    ∃ found', (List.finRange g.nodes).foldlM
      (fun found v => if found = true then some true else relaxable g dist u v) found = some found' ∧
        (found' = true ↔ found = true ∨ ∃ v ∈ List.finRange g.nodes, Relaxable g dist u v) := by
  refine search_spec (fun v _ => if_pos rfl)
    (fun v _ => ⟨decide (Relaxable g dist u v), ?_, decide_eq_true_iff⟩) found
  rw [if_neg Bool.false_ne_true, relaxable_spec h hb]

/-- **The search** finds out whether an edge can be relaxed. -/
theorem detectNegCycle_spec (h : Dist g s b dist) (hb : b < 2 ^ 20) :
    ∃ found, detectNegCycle g dist = some found ∧ (found = false ↔ Closed g dist) := by
  have hloop := search_spec (l := List.finRange g.nodes)
    (f := fun found u => (List.finRange g.nodes).foldlM
      (fun found v => if found = true then some true else relaxable g dist u v) found)
    (P := fun u => ∃ v ∈ List.finRange g.nodes, Relaxable g dist u v)
  obtain ⟨found, hrun, hiff⟩ := hloop
    (by
      intro u _
      obtain ⟨found, hrun, hiff⟩ := detectFrom_spec h hb u true
      exact hrun.trans (congrArg some (hiff.mpr (Or.inl rfl))))
    (by
      intro u _
      obtain ⟨found, hrun, hiff⟩ := detectFrom_spec h hb u false
      exact ⟨found, hrun, hiff.trans (or_iff_right Bool.false_ne_true)⟩) false
  refine ⟨found, hrun, ?_⟩
  rw [or_iff_right Bool.false_ne_true] at hiff
  rw [← Bool.not_eq_true, hiff, closed_iff, not_iff_not]
  simp only [List.mem_finRange, true_and]

/-- The distances at the start. -/
theorem dist_init (g : GraphT) (s : g.Node) :
    Dist g s 0 (Function.update (fun _ => intMax) s 0) ∧
      Below g s 0 (Function.update (fun _ => intMax) s 0) := by
  have hs : ∀ v, Function.update (fun _ => intMax) s 0 v ≠ intMax → v = s := by
    intro v hv
    by_contra hne
    exact hv (Function.update_of_ne hne ..)
  refine ⟨⟨fun v hv => ?_, fun v hv => ?_⟩, fun l v hl hlen => ?_⟩
  · obtain rfl := hs v hv
    rw [Function.update_self]
    exact ⟨[], rfl, rfl⟩
  · obtain rfl := hs v hv
    rw [Function.update_self]
    decide
  · obtain rfl := List.length_eq_zero_iff.mp (Nat.le_zero.mp hlen)
    obtain rfl : s = v := hl
    rw [Function.update_self]
    exact ⟨by decide, Int.le_refl 0⟩

/-- There are few relaxations in all the rounds. -/
theorem relaxations_lt (g : GraphT) : (g.nodes - 1) * (g.nodes * g.nodes) < 2 ^ 20 := by
  have hn := g.nodes_le
  calc (g.nodes - 1) * (g.nodes * g.nodes)
    _ ≤ 50 * (50 * 50) := Nat.mul_le_mul (by omega) (Nat.mul_le_mul hn hn)
    _ < 2 ^ 20 := by decide

/-- **The call**, with the distances after the rounds. -/
theorem graphBellmanFord_run (g : GraphT) (s : g.Node) (hasNegCycle : Bool) {outcomes : Outcomes}
    (hok : outcomes.first = true) : ∃ dist found,
      relaxRounds g (g.nodes - 1) (Function.update (fun _ => intMax) s 0) = some dist ∧
      graphBellmanFord g s.val hasNegCycle outcomes =
        some (0, found, (List.finRange g.nodes).map dist) ∧
      Dist g s ((g.nodes - 1) * (g.nodes * g.nodes)) dist ∧ dist s ≤ 0 ∧
      (Closed g dist ∨ Below g s (g.nodes - 1) dist) ∧ (found = false ↔ Closed g dist) := by
  obtain ⟨hinit, hbelow⟩ := dist_init g s
  have hrounds := relaxations_lt g
  obtain ⟨dist, hrun, hd, hs, hcase⟩ := relaxRounds_spec (g.nodes - 1) hinit hbelow (by omega)
  rw [Nat.zero_add] at hd hcase
  rw [Function.update_self] at hs
  obtain ⟨found, hsearch, hfound⟩ := detectNegCycle_spec hd hrounds
  refine ⟨dist, found, hrun, ?_, hd, hs, hcase, hfound⟩
  simp only [graphBellmanFord, dif_pos s.isLt, hok, Fin.eta, hrun, hsearch, Option.bind_eq_bind,
    Option.bind_some]
  rfl

/-- **An edge can be relaxed** after the rounds only because of a negative cycle. -/
theorem exists_negCycle (h : Dist g s b dist) (hbelow : Below g s (g.nodes - 1) dist)
    (hopen : ¬ Closed g dist) : ∃ x c, NegClosed (Edge g) (weight g) s x c := by
  by_contra hno
  refine hopen fun u v he hinf => ?_
  obtain ⟨l, hl, hw⟩ := h.sound u hinf
  obtain ⟨l', hl', hle, hnd⟩ := exists_nodup_le (w := weight g)
    (fun x c hc => hno ⟨x, c, hc⟩) (hl.concat he)
  have hlen := length_lt_card hnd
  rw [Fintype.card_fin] at hlen
  rw [weight_concat hl, hw] at hle
  exact Int.le_trans (hbelow l' v hl' (by omega)).2 hle

/-- **Bellman-Ford.** -/
theorem graphBellmanFord_correct (g : GraphT) (s : g.Node) (hasNegCycle : Bool)
    (outcomes : Outcomes) :
    (outcomes.first = false →
      graphBellmanFord g s.val hasNegCycle outcomes = some (-2, hasNegCycle, [])) ∧
    (outcomes.first = true →
      ∃ found dump, graphBellmanFord g s.val hasNegCycle outcomes = some (0, found, dump) ∧
        (found = true ↔ ∃ x c, NegClosed (Edge g) (weight g) s x c ∧ c.Nodup) ∧
        (found = false → ∀ v : g.Node, ∃ d, dump[v.val]? = some d ∧
          (d = intMax ↔ ¬ Reachable (Edge g) s v) ∧
          (Reachable (Edge g) s v →
            IsLeast {d | ∃ l, Walk (Edge g) s l v ∧ Walks.weight (weight g) s l = d} d))) := by
  refine ⟨fun hno => ?_, fun hok => ?_⟩
  · rw [graphBellmanFord, dif_pos s.isLt, hno]
    rfl
  have hrounds := relaxations_lt g
  obtain ⟨dist, found, -, hrun, hd, hs, hcase, hfound⟩ := graphBellmanFord_run g s hasNegCycle hok
  have hsfin : dist s ≠ intMax := by
    unfold intMax
    omega
  refine ⟨found, (List.finRange g.nodes).map dist, hrun, ?_, fun hf v => ?_⟩
  · refine ⟨fun hf => ?_, fun hcycle => ?_⟩
    · have hopen : ¬ Closed g dist := fun hc => Bool.noConfusion (hf.symm.trans (hfound.mpr hc))
      obtain ⟨x, c, hc⟩ := exists_negCycle hd (hcase.resolve_left hopen) hopen
      exact exists_simple_neg hc
    · obtain ⟨x, c, hc, -⟩ := hcycle
      by_contra hf
      have hclosed := hfound.mp (Bool.not_eq_true _ ▸ hf)
      obtain ⟨l, hl⟩ := hc.reachable
      -- once round the cycle the distance would have to be smaller than itself
      have hx := (hclosed.walk hd hrounds hl hsfin).1
      have hround := (hclosed.walk hd hrounds hc.closed hx).2
      have hneg := hc.neg
      omega
  · have hclosed := hfound.mp hf
    have hreach : Reachable (Edge g) s v → dist v ≠ intMax := fun ⟨l, hl⟩ =>
      (hclosed.walk hd hrounds hl hsfin).1
    refine ⟨dist v, ?_, ⟨fun hinf hr => hreach hr hinf, fun hno => ?_⟩, fun hr => ⟨?_, ?_⟩⟩
    · simp
    · by_contra hfin
      obtain ⟨l, hl, -⟩ := hd.sound v hfin
      exact hno ⟨l, hl⟩
    · exact hd.sound v (hreach hr)
    · rintro d ⟨l, hl, rfl⟩
      have hle := (hclosed.walk hd hrounds hl hsfin).2
      omega

end DataStructures.Graph
