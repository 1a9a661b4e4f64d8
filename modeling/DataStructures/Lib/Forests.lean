import Mathlib.Combinatorics.SimpleGraph.Acyclic

/-!
# Searching a forest

`Branch G p s v`: a path leads from `s` to `v` past `p`, the vertex that `s` has been found from.
In a forest the branch of `s` is `s` and the branches of its other neighbours (`branch_iff`), and
these have no vertex in common (`branch_unique`).

`Clear G marked p s`: the marks are outside of the branch.  `Swept G marked p s done`: the marks
after the branches of the neighbours `done` have been gone through.  `Clear.child`: then the branch
of the next neighbour is clear.

`Tied adj O u`: the vertex has at most one neighbour among those in `O`.  `isAcyclic_of_allTied`: a
graph whose vertices can be listed so that each is tied to those before it is a forest.
-/

namespace DataStructures.Lib.Forests

variable {V : Type} {G : SimpleGraph V} {p : Option V} {s i j v : V} {marked : V → Prop}
  {done O new new' : List V}

/-- A path from `s` to `v` past `p`. -/
def Branch (G : SimpleGraph V) (p : Option V) (s v : V) : Prop :=
  ∃ q : G.Walk s v, q.IsPath ∧ ∀ x ∈ p, x ∉ q.support

theorem branch_self (hs : s ∉ p) : Branch G p s s := by
  refine ⟨.nil, .nil, fun x hx hmem => ?_⟩
  obtain rfl : x = s := by simpa using hmem
  exact hs hx

theorem Branch.reachable (h : Branch G p s v) : G.Reachable s v := by
  obtain ⟨q, -, -⟩ := h
  exact ⟨q⟩

theorem branch_none : Branch G none s v ↔ G.Reachable s v := by
  classical
  refine ⟨Branch.reachable, fun h => ?_⟩
  obtain ⟨q⟩ := h
  exact ⟨q.toPath, q.toPath.2, fun x hx => absurd hx (Option.not_mem_none x)⟩

theorem Branch.ne (h : Branch G (some s) i v) : v ≠ s := by
  obtain ⟨q, -, hs⟩ := h
  rintro rfl
  exact hs v rfl q.end_mem_support

/-- **The branches of two neighbours have no vertex in common.** -/
theorem branch_unique (hG : G.IsAcyclic) (hi : G.Adj s i) (hj : G.Adj s j)
    (h : Branch G (some s) i v) (h' : Branch G (some s) j v) : i = j := by
  obtain ⟨q, hq, hs⟩ := h
  obtain ⟨q', hq', hs'⟩ := h'
  have hpath : (SimpleGraph.Walk.cons hi q).IsPath := hq.cons (hs s rfl)
  have hpath' : (SimpleGraph.Walk.cons hj q').IsPath := hq'.cons (hs' s rfl)
  have heq := (hG.subsingleton_path s v).elim ⟨_, hpath⟩ ⟨_, hpath'⟩
  have hsnd := congrArg (fun r : G.Path s v => r.1.snd) heq
  rwa [SimpleGraph.Walk.snd_cons, SimpleGraph.Walk.snd_cons] at hsnd

/-- **A path that goes on from a neighbour** keeps past the vertex that `s` has been found from. -/
theorem not_mem_support_of_cons (hG : G.IsAcyclic) (hp : ∀ x ∈ p, G.Adj s x) (hi : G.Adj s i)
    (hip : i ∉ p) {q : G.Walk i v} (hq : (SimpleGraph.Walk.cons hi q).IsPath) :
    ∀ x ∈ p, x ∉ (SimpleGraph.Walk.cons hi q).support := by
  intro x hx hmem
  have hxi := hG.eq_snd_of_adj_start hq (hp x hx) hmem
  rw [SimpleGraph.Walk.snd_cons] at hxi
  exact hip (hxi ▸ hx)

/-- **A branch is its first vertex and the branches of the neighbours.** -/
theorem branch_iff (hG : G.IsAcyclic) (hp : ∀ x ∈ p, G.Adj s x) :
    Branch G p s v ↔ v = s ∨ ∃ i, G.Adj s i ∧ i ∉ p ∧ Branch G (some s) i v := by
  refine ⟨?_, ?_⟩
  · rintro ⟨q, hq, hpast⟩
    cases q with
    | nil => exact Or.inl rfl
    | @cons _ i _ h q =>
      obtain ⟨hq', hs⟩ := (SimpleGraph.Walk.cons_isPath_iff h q).mp hq
      refine Or.inr ⟨i, h, fun hi => ?_, q, hq', fun x hx => ?_⟩
      · exact hpast i hi (List.mem_cons_of_mem s q.start_mem_support)
      · obtain rfl := Option.some.inj hx
        exact hs
  · rintro (rfl | ⟨i, hi, hip, q, hq, hs⟩)
    · exact branch_self fun hv => (hp v hv).ne rfl
    · have hpath : (SimpleGraph.Walk.cons hi q).IsPath := hq.cons (hs s rfl)
      exact ⟨_, hpath, not_mem_support_of_cons hG hp hi hip hpath⟩

/-! ### Marks -/

/-- The marks are outside of the branch of `s`, which has been found from a marked vertex. -/
structure Clear (G : SimpleGraph V) (marked : V → Prop) (p : Option V) (s : V) : Prop where
  branch : ∀ v, Branch G p s v → ¬ marked v
  parent : ∀ x ∈ p, G.Adj s x ∧ marked x

theorem Clear.not_marked (h : Clear G marked p s) : ¬ marked s :=
  h.branch s (branch_self fun hs => (h.parent s hs).1.ne rfl)

/-- The marks after the branches of the neighbours `done`. -/
def Swept (G : SimpleGraph V) (marked : V → Prop) (p : Option V) (s : V) (done : List V) (v : V) :
    Prop :=
  marked v ∨ v = s ∨ ∃ i ∈ done, G.Adj s i ∧ i ∉ p ∧ Branch G (some s) i v

theorem swept_nil : Swept G marked p s [] v ↔ v = s ∨ marked v := by
  simp [Swept, or_comm]

theorem swept_concat_of_adj (hi : G.Adj s i) (hip : i ∉ p) :
    Swept G marked p s (done ++ [i]) v ↔
      Swept G marked p s done v ∨ Branch G (some s) i v := by
  simp only [Swept, List.mem_append, List.mem_singleton, or_and_right, exists_or, exists_eq_left, hi,
    hip, not_false_eq_true, true_and, or_assoc]

theorem swept_concat_of_not (h : ¬ (G.Adj s i ∧ i ∉ p)) :
    Swept G marked p s (done ++ [i]) v ↔ Swept G marked p s done v := by
  simp only [Swept, List.mem_append, List.mem_singleton, or_and_right, exists_or, exists_eq_left]
  have hno : ¬ (G.Adj s i ∧ i ∉ p ∧ Branch G (some s) i v) := fun ⟨hi, hip, _⟩ => h ⟨hi, hip⟩
  rw [or_iff_left hno]

/-- **All the neighbours**: the whole branch is marked. -/
theorem Clear.swept_all (hG : G.IsAcyclic) (h : Clear G marked p s) (hall : ∀ i, i ∈ done) :
    Swept G marked p s done v ↔ marked v ∨ Branch G p s v := by
  rw [Swept, branch_iff hG fun x hx => (h.parent x hx).1]
  simp only [hall, true_and]

/-- **The branch of the next neighbour** is clear. -/
theorem Clear.child (hG : G.IsAcyclic) (h : Clear G marked p s) (hi : G.Adj s i) (hip : i ∉ p)
    (hd : i ∉ done) : Clear G (Swept G marked p s done) (some s) i := by
  refine ⟨fun v hv => ?_, fun x hx => ?_⟩
  · have hb : Branch G p s v :=
      (branch_iff hG fun x hx => (h.parent x hx).1).mpr (Or.inr ⟨i, hi, hip, hv⟩)
    rintro (hm | rfl | ⟨j, hj, hsj, -, hjv⟩)
    · exact h.branch v hb hm
    · exact hv.ne rfl
    · obtain rfl := branch_unique hG hi hsj hv hjv
      exact hd hj
  · obtain rfl := Option.some.inj hx
    exact ⟨hi.symm, Or.inr (Or.inl rfl)⟩

/-- The next neighbour has no mark. -/
theorem Clear.not_swept (hG : G.IsAcyclic) (h : Clear G marked p s) (hi : G.Adj s i) (hip : i ∉ p)
    (hd : i ∉ done) : ¬ Swept G marked p s done i :=
  (h.child hG hi hip hd).branch i (branch_self fun hs => hi.ne (Option.some.inj hs))

/-! ### A list in which each vertex is tied to those before it -/

/-- No edge to itself, and to at most one of the vertices in `O`. -/
def Tied (adj : V → V → Prop) (O : List V) (u : V) : Prop :=
  ¬ adj u u ∧ ∀ x ∈ O, ∀ y ∈ O, adj u x → adj u y → x = y

/-- Each vertex of a list is tied to those in `O` and those before it. -/
def AllTied (adj : V → V → Prop) : List V → List V → Prop
  | _, [] => True
  | O, u :: new => Tied adj O u ∧ AllTied adj (O ++ [u]) new

theorem allTied_append {adj : V → V → Prop} :
    AllTied adj O (new ++ new') ↔ AllTied adj O new ∧ AllTied adj (O ++ new) new' := by
  induction new generalizing O with
  | nil => rw [List.nil_append, List.append_nil, AllTied, true_and]
  | cons u new ih => rw [List.cons_append, AllTied, AllTied, ih, List.append_assoc, and_assoc]; rfl

/-- **No cycle** goes over vertices that are tied to those before them. -/
theorem not_isCycle_of_allTied {adj : V → V → Prop} (hadj : ∀ {u v}, G.Adj u v → adj u v)
    (h : AllTied adj [] O) {c : G.Walk v v} (hc : c.support ⊆ O) : ¬ c.IsCycle := by
  classical
  induction O using List.reverseRecOn generalizing v with
  | nil => exact absurd (hc c.start_mem_support) List.not_mem_nil
  | append_singleton O u ih =>
    rw [allTied_append, List.nil_append] at h
    by_cases hu : u ∈ c.support
    · intro hcycle
      have hr := hcycle.rotate hu
      have hnil := hr.not_nil
      have hmem : ∀ x ∈ (c.rotate u hu).support, x ≠ u → x ∈ O := by
        intro x hx hne
        have hxo := hc ((SimpleGraph.Walk.mem_support_rotate_iff c u hu).mp hx)
        exact (List.mem_append.mp hxo).resolve_right fun h => hne (List.mem_singleton.mp h)
      have hsnd := (c.rotate u hu).adj_snd hnil
      have hpen := ((c.rotate u hu).adj_penultimate hnil).symm
      refine hr.snd_ne_penultimate (h.2.1.2 _ (hmem _ ?_ hsnd.ne') _ (hmem _ ?_ hpen.ne') (hadj hsnd)
        (hadj hpen))
      · exact SimpleGraph.Walk.getVert_mem_support ..
      · exact SimpleGraph.Walk.getVert_mem_support ..
    · refine ih h.1 fun x hx => ?_
      refine (List.mem_append.mp (hc hx)).resolve_right fun hxu => ?_
      exact hu (List.mem_singleton.mp hxu ▸ hx)

theorem isAcyclic_of_allTied {adj : V → V → Prop} (hadj : ∀ {u v}, G.Adj u v → adj u v)
    (h : AllTied adj [] O) (hall : ∀ v, v ∈ O) : G.IsAcyclic :=
  fun _ _ => not_isCycle_of_allTied hadj h fun x _ => hall x

theorem not_adj_self_of_allTied {adj : V → V → Prop} (h : AllTied adj O new) (hv : v ∈ new) :
    ¬ adj v v := by
  induction new generalizing O with
  | nil => exact absurd hv List.not_mem_nil
  | cons u new ih =>
    rcases List.mem_cons.mp hv with rfl | hv
    · exact h.1.1
    · exact ih h.2 hv

end DataStructures.Lib.Forests
