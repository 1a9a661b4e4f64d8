import DataStructures.Lib.Walks
import Mathlib.Order.Bounds.Defs

/-!
# Searches in a graph

`Bfs adj s done queue depth`: the vertices in `done` have been gone through, those in `queue` wait,
both in the order in which they were found, and `depth` is the number of edges over which each was
found.

* `Bfs.next`: going through the first one that waits.
* `Bfs.le_length`: a walk no longer than the depths that wait ends in a vertex that has been found,
  and is not shorter than its depth.
* `Bfs.isLeast`: the depths are distances.

`Found adj l`: every vertex of the list but the first one is found over an edge from an earlier one.
`Found.reachable`: all of them can be reached from the first one.
-/

namespace DataStructures.Lib.Walks

variable {V : Type} {adj : V → V → Prop} {s u v : V} {done queue new l l' : List V}
  {depth : V → Nat}

/-- A breadth-first search on its way. -/
structure Bfs (adj : V → V → Prop) (s : V) (done queue : List V) (depth : V → Nat) : Prop where
  nodup : (done ++ queue).Nodup
  start : s ∈ done ++ queue ∧ depth s = 0
  walk : ∀ v ∈ done ++ queue, ∃ l, Walk adj s l v ∧ l.length = depth v
  sorted : (done ++ queue).Pairwise (fun u v => depth u ≤ depth v)
  edge : ∀ u ∈ done, ∀ v, adj u v → v ∈ done ++ queue ∧ depth v ≤ depth u + 1
  near : ∀ u ∈ queue.head?, ∀ v ∈ queue, depth v ≤ depth u + 1

theorem bfs_start (s : V) : Bfs adj s [] [s] (fun _ => 0) where
  nodup := List.nodup_singleton s
  start := ⟨List.mem_singleton_self s, rfl⟩
  walk v hv := by
    obtain rfl := List.mem_singleton.mp hv
    exact ⟨[], rfl, rfl⟩
  sorted := List.pairwise_singleton _ s
  edge u hu := absurd hu List.not_mem_nil
  near u _ v _ := Nat.zero_le _

theorem Bfs.depth_done_le (h : Bfs adj s done queue depth) {q : V} (hu : u ∈ done) (hq : q ∈ queue) :
    depth u ≤ depth q :=
  (List.pairwise_append.mp h.sorted).2.2 u hu q hq

/-- The search with the depths of the new vertices. -/
theorem Bfs.next_aux (h : Bfs adj s done (u :: queue) depth) (hnew : new.Nodup)
    (hmem : ∀ v, v ∈ new ↔ adj u v ∧ v ∉ done ++ u :: queue) {depth' : V → Nat}
    (hold : ∀ v ∈ done ++ u :: queue, depth' v = depth v) (hd : ∀ v ∈ new, depth' v = depth u + 1) :
    Bfs adj s (done ++ [u]) (queue ++ new) depth' := by
  have hlist : done ++ [u] ++ (queue ++ new) = (done ++ u :: queue) ++ new := by simp
  have hu : u ∈ done ++ u :: queue := List.mem_append_right done List.mem_cons_self
  have hq : ∀ {v}, v ∈ queue → v ∈ done ++ u :: queue := fun hv =>
    List.mem_append_right done (List.mem_cons_of_mem u hv)
  have hle : ∀ v ∈ done ++ u :: queue, depth v ≤ depth u + 1 := by
    intro v hv
    rcases List.mem_append.mp hv with hv | hv
    · exact Nat.le_succ_of_le (h.depth_done_le hv List.mem_cons_self)
    · exact h.near u rfl v hv
  refine ⟨?_, ?_, fun v hv => ?_, ?_, fun v hv x hx => ?_, fun x hx v hv => ?_⟩
  · rw [hlist, List.nodup_append']
    exact ⟨h.nodup, hnew, fun v hv hn => ((hmem v).mp hn).2 hv⟩
  · rw [hlist, hold s h.start.1]
    exact ⟨List.mem_append_left new h.start.1, h.start.2⟩
  · rw [hlist] at hv
    rcases List.mem_append.mp hv with hv | hv
    · rw [hold v hv]
      exact h.walk v hv
    · obtain ⟨l, hl, hlen⟩ := h.walk u hu
      rw [hd v hv, ← hlen]
      exact ⟨l ++ [v], hl.concat ((hmem v).mp hv).1, by rw [List.length_append]; rfl⟩
  · rw [hlist, List.pairwise_append]
    refine ⟨h.sorted.imp_of_mem fun hx hy hxy => ?_, ?_, fun x hx v hv => ?_⟩
    · rwa [hold _ hx, hold _ hy]
    · exact List.pairwise_of_forall_mem_list fun x hx v hv => by rw [hd x hx, hd v hv]
    · rw [hold x hx, hd v hv]
      exact hle x hx
  · rw [hlist]
    by_cases hx' : x ∈ done ++ u :: queue
    · refine ⟨List.mem_append_left new hx', ?_⟩
      rcases List.mem_append.mp hv with hv | hv
      · rw [hold x hx', hold v (List.mem_append_left _ hv)]
        exact (h.edge v hv x hx).2
      · obtain rfl := List.mem_singleton.mp hv
        rw [hold x hx', hold v hu]
        exact hle x hx'
    · rcases List.mem_append.mp hv with hv | hv
      · exact absurd (h.edge v hv x hx).1 hx'
      · obtain rfl := List.mem_singleton.mp hv
        have hxn := (hmem x).mpr ⟨hx, hx'⟩
        rw [hd x hxn, hold v hu]
        exact ⟨List.mem_append_right _ hxn, Nat.le_refl _⟩
  · have hhead : depth u ≤ depth' x := by
      cases queue with
      | nil =>
        rw [List.nil_append] at hx
        rw [hd x (List.mem_of_mem_head? hx)]
        exact Nat.le_succ _
      | cons y queue =>
        obtain rfl : y = x := Option.some.inj hx
        rw [hold y (hq List.mem_cons_self)]
        exact List.rel_of_pairwise_cons (List.pairwise_append.mp h.sorted).2.1 List.mem_cons_self
    have hv' : depth' v ≤ depth u + 1 := by
      rcases List.mem_append.mp hv with hv | hv
      · rw [hold v (hq hv)]
        exact hle v (hq hv)
      · exact Nat.le_of_eq (hd v hv)
    omega

/-- **Going through the first vertex that waits.** -/
theorem Bfs.next (h : Bfs adj s done (u :: queue) depth) (hnew : new.Nodup)
    (hmem : ∀ v, v ∈ new ↔ adj u v ∧ v ∉ done ++ u :: queue) :
    ∃ depth', Bfs adj s (done ++ [u]) (queue ++ new) depth' ∧
      (∀ v ∈ done ++ u :: queue, depth' v = depth v) ∧ ∀ v ∈ new, depth' v = depth u + 1 := by
  classical
  have hold : ∀ v ∈ done ++ u :: queue, (if v ∈ new then depth u + 1 else depth v) = depth v :=
    fun v hv => if_neg fun hn => ((hmem v).mp hn).2 hv
  have hd : ∀ v ∈ new, (if v ∈ new then depth u + 1 else depth v) = depth u + 1 :=
    fun v hv => if_pos hv
  exact ⟨_, h.next_aux hnew hmem hold hd, hold, hd⟩

/-- **Walks and depths.** -/
theorem Bfs.le_length (h : Bfs adj s done queue depth) (hl : Walk adj s l v)
    (hq : ∀ q ∈ queue, l.length ≤ depth q) : v ∈ done ++ queue ∧ depth v ≤ l.length := by
  induction hn : l.length generalizing l v with
  | zero =>
    obtain rfl := List.length_eq_zero_iff.mp hn
    obtain rfl : s = v := hl
    exact ⟨h.start.1, Nat.le_of_eq h.start.2⟩
  | succ n ih =>
    obtain ⟨l', x, rfl, hx, he⟩ := hl.last_edge (List.ne_nil_of_length_eq_add_one hn)
    rw [List.length_append, List.length_singleton] at hn hq
    obtain ⟨hmem, hle⟩ := ih hx (fun q hq' => by have := hq q hq'; omega) (by omega)
    rcases List.mem_append.mp hmem with hdone | hqueue
    · obtain ⟨hv, hle'⟩ := h.edge x hdone v he
      exact ⟨hv, by omega⟩
    · have := hq x hqueue
      omega

/-- The numbers of edges of the walks. -/
def Lengths (adj : V → V → Prop) (s v : V) : Set Nat := {k | ∃ l, Walk adj s l v ∧ l.length = k}

/-- **The depths are distances**, up to those that wait. -/
theorem Bfs.isLeast (h : Bfs adj s done queue depth) (hv : v ∈ done ++ queue)
    (hq : ∀ q ∈ queue, depth v ≤ depth q) : IsLeast (Lengths adj s v) (depth v) := by
  refine ⟨h.walk v hv, ?_⟩
  rintro k ⟨l, hl, rfl⟩
  by_contra hlt
  have hle := (h.le_length hl (fun q hq' => by have := hq q hq'; omega)).2
  omega

/-- **At the end** all that can be reached has been found. -/
theorem Bfs.mem_iff (h : Bfs adj s done [] depth) : v ∈ done ↔ Reachable adj s v := by
  refine ⟨fun hv => ?_, fun hv => ?_⟩
  · obtain ⟨l, hl, -⟩ := h.walk v (List.mem_append_left [] hv)
    exact ⟨l, hl⟩
  · obtain ⟨l, hl⟩ := hv
    have hmem := (h.le_length hl (fun q hq => absurd hq List.not_mem_nil)).1
    rwa [List.append_nil] at hmem

/-! ### Lists of found vertices -/

/-- Every vertex but the first one is found over an edge from an earlier one. -/
def Found (adj : V → V → Prop) (l : List V) : Prop :=
  ∀ (i : Nat) (v : V), l[i + 1]? = some v → ∃ (j : Nat) (u : V), j ≤ i ∧ l[j]? = some u ∧ adj u v

theorem found_singleton (u : V) : Found adj [u] := by
  intro i v hv
  cases hv

/-- **Two lists**, the second of which is found from a vertex of the first. -/
theorem Found.append (h : Found adj l) (h' : Found adj (v :: l')) (hu : u ∈ l) (he : adj u v) :
    Found adj (l ++ v :: l') := by
  intro i x hx
  by_cases hi : i + 1 < l.length
  · rw [List.getElem?_append_left hi] at hx
    obtain ⟨j, y, hj, hy, hyx⟩ := h i x hx
    exact ⟨j, y, hj, by rwa [List.getElem?_append_left (by omega)], hyx⟩
  · rw [List.getElem?_append_right (by omega)] at hx
    cases hk : i + 1 - l.length with
    | zero =>
      rw [hk] at hx
      obtain rfl : v = x := Option.some.inj hx
      obtain ⟨j, hj, rfl⟩ := List.getElem_of_mem hu
      exact ⟨j, l[j], by omega, by rw [List.getElem?_append_left hj, List.getElem?_eq_getElem hj], he⟩
    | succ k =>
      rw [hk] at hx
      obtain ⟨j, y, hj, hy, hyx⟩ := h' k x hx
      refine ⟨l.length + j, y, by omega, ?_, hyx⟩
      rwa [List.getElem?_append_right (Nat.le_add_right ..), Nat.add_sub_cancel_left]

/-- **What is found can be reached.** -/
theorem Found.reachable (h : Found adj (s :: l)) (hv : v ∈ s :: l) : Reachable adj s v := by
  have hall : ∀ (i : Nat) (v : V), (s :: l)[i]? = some v → Reachable adj s v := by
    intro i
    induction i using Nat.strongRecOn with
    | ind i ih =>
      intro v hv
      cases i with
      | zero =>
        obtain rfl : s = v := Option.some.inj hv
        exact .refl
      | succ i =>
        obtain ⟨j, u, hj, hu, he⟩ := h i v hv
        exact (ih j (Nat.lt_succ_of_le hj) u hu).tail he
  obtain ⟨i, hi⟩ := List.mem_iff_getElem?.mp hv
  exact hall i v hi

end DataStructures.Lib.Walks
