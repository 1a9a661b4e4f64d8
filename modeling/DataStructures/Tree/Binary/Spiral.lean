import DataStructures.Tree.Binary.Stacks

/-!
# Printing in a spiral

Two stacks take turns.  While the nodes on one are printed, their children are pushed on the other,
so at each switch one stack is empty and the other holds one level (`layer`), alternately from right
to left and from left to right.
-/

namespace DataStructures.BinaryTree

open Lib LevelOrder

variable {h : Heap} {t : Tree} {ts us : List Tree} {printing filling : Stack.StackT} {o : Outcomes}
  {f g : Tree → Tree} {first second : BinaryTreeNode → Ptr} {k rounds : Nat} {root : Ptr}

/-- The subtrees at a depth, from left to right. -/
def layer (t : Tree) (k : Nat) : List Tree := level (subtrees t) k

/-- What is below the trees, on the sides `f` and `g`. -/
def kids (f g : Tree → Tree) (ts : List Tree) : List Tree := ts.flatMap (fun t => present (f t) ++ present (g t))

/-- A depth in the order in which the spiral goes through it. -/
def spiral {A : Type} (t : BinaryTree A) (d : Nat) : List A :=
  if d % 2 = 0 then (level t d).reverse else level t d

/-- The pointer `first` leads to the side `f`. -/
def Leads (first : BinaryTreeNode → Ptr) (f : Tree → Tree) : Prop :=
  ∀ n l r, first (nodeOf (.node n l r)).2 = ptr (f (.node n l r))

theorem leads_left : Leads BinaryTreeNode.left BinaryTree.left := fun _ _ _ => rfl

theorem leads_right : Leads BinaryTreeNode.right BinaryTree.right := fun _ _ _ => rfl

/-! ### Layers -/

theorem kids_cons (f g : Tree → Tree) (t : Tree) (ts : List Tree) :
    kids f g (t :: ts) = present (f t) ++ present (g t) ++ kids f g ts := List.flatMap_cons

theorem reverse_present (t : Tree) : (present t).reverse = present t := by
  cases t with
  | nil => rfl
  | node n l r => rfl

/-- The kids the other way round. -/
theorem reverse_kids (f g : Tree → Tree) (ts : List Tree) : (kids f g ts).reverse = kids g f ts.reverse := by
  rw [kids, List.reverse_flatMap, kids]
  refine List.flatMap_congr fun t _ => ?_
  rw [Function.comp_apply, List.reverse_append, reverse_present, reverse_present]

theorem layer_zero (t : Tree) : layer t 0 = present t := by
  cases t with
  | nil => rfl
  | node n l r => rfl

/-- **The kids of a layer are the next one.** -/
theorem layer_succ (t : Tree) (k : Nat) :
    layer t (k + 1) = kids BinaryTree.left BinaryTree.right (layer t k) := by
  induction t generalizing k with
  | nil => rfl
  | node n l r ihl ihr =>
    have hsplit : ∀ k, layer (.node n l r) (k + 1) = layer l k ++ layer r k := fun _ => rfl
    rw [hsplit]
    cases k with
    | zero =>
      rw [layer_zero, layer_zero, layer_zero]
      exact (List.flatMap_singleton ..).symm
    | succ k =>
      rw [hsplit, ihl, ihr]
      exact List.flatMap_append.symm

theorem map_layer (t : Tree) (k : Nat) :
    (layer t k).map (fun s => (nodeOf s).2.data) = level (t.map Prod.snd) k := by
  rw [← map_data_stored, stored_eq, level_map, level_map, List.map_map]
  rfl

theorem stored_layer (hs : Spans h root t) (k : Nat) : Stored h (layer t k) := by
  intro s hmem m hm
  exact hs.node m (mem_stored_of_subtree (mem_of_level hmem) hm)

theorem pending_kids (hne : ∀ t ∈ ts, t ≠ .nil) : pending ts =
    (kids BinaryTree.left BinaryTree.right ts).length + pending (kids BinaryTree.left BinaryTree.right ts) := by
  induction ts with
  | nil => rfl
  | cons t ts ih =>
    obtain ⟨ht, hts⟩ := List.forall_mem_cons.mp hne
    cases t with
    | nil => exact absurd rfl ht
    | node n l r =>
      have hl := numNodes_present l
      have hr := numNodes_present r
      rw [pending_node, kids_cons, BinaryTree.left, BinaryTree.right, List.length_append, List.length_append,
        pending_append, pending_append, ih hts]
      omega

/-- What is pending below a layer are the next one and what is pending below that. -/
theorem pending_layer (t : Tree) (k : Nat) :
    pending (layer t k) = (layer t (k + 1)).length + pending (layer t (k + 1)) := by
  rw [layer_succ]
  exact pending_kids fun s hs => ne_nil_of_mem_subtrees (mem_of_level hs)

theorem length_layer_le (t : Tree) (k : Nat) : (layer t k).length ≤ t.numNodes := by
  induction t generalizing k with
  | nil => exact Nat.zero_le _
  | node n l r ihl ihr =>
    rw [BinaryTree.numNodes]
    cases k with
    | zero => exact Nat.le_add_left 1 _
    | succ k =>
      have hl := ihl k
      have hr := ihr k
      have hsplit : layer (.node n l r) (k + 1) = layer l k ++ layer r k := rfl
      rw [hsplit, List.length_append]
      omega

/-! ### The loops -/

/-- **A stack is printed**, and the kids end up on the other one, the last of them on top. -/
theorem spiralLevel_spec (hf : Leads first f) (hg : Leads second g) (hp : Piles printing ts)
    (hs : Stored h ts) (hu : Piles filling us) (hr : ts.length < rounds) :
    (o.Succeed (kids f g ts).length → ∃ printing' filling',
      spiralLevel h first second rounds o printing filling =
        some (ts.map (fun t => (nodeOf t).2.data), printing', filling', o.later (kids f g ts).length) ∧
      Piles printing' [] ∧ Piles filling' ((kids f g ts).reverse ++ us)) ∧
    (¬ o.Succeed (kids f g ts).length → spiralLevel h first second rounds o printing filling = none) := by
  induction rounds generalizing ts us printing filling o with
  | zero => exact absurd hr (Nat.not_lt_zero _)
  | succ rounds ih =>
    rcases hp.cons_cases hs with ⟨rfl, hempty⟩ | ⟨n, l, r, ts, printing', rfl, hempty, hpop, hload, hp', -, -, hts⟩
    · rw [spiralLevel, if_pos hempty]
      exact ⟨fun _ => ⟨printing, filling, rfl, hp, hu⟩, fun hn => absurd (Outcomes.succeed_zero o) hn⟩
    · have hfirst := hf n l r
      have hsecond := hg n l r
      obtain ⟨hok, hfail⟩ := hu.pushChildren (o := o) (f (.node n l r)) (g (.node n l r))
      rw [spiralLevel, hempty, if_neg Bool.false_ne_true, hpop]
      simp only [Option.bind_eq_bind, Option.bind_some, hload]
      rw [nodeOf] at hfirst hsecond
      rw [hfirst, hsecond, kids_cons, List.length_append, List.length_append, Outcomes.succeed_add]
      by_cases ho : o.Succeed ((present (f (.node n l r))).length + (present (g (.node n l r))).length)
      · obtain ⟨filling', hpush, hu'⟩ := hok ho
        obtain ⟨hrun, hfailrun⟩ := ih hp' hts hu' (Nat.lt_of_succ_lt_succ hr)
        rw [hpush, Option.bind_some]
        refine ⟨fun hall => ?_, fun hn => ?_⟩
        · obtain ⟨printing'', filling'', hres, hp'', hu''⟩ := hrun hall.2
          refine ⟨printing'', filling'', ?_, hp'', ?_⟩
          · rw [hres, Outcomes.later_later]
            rfl
          · rw [List.reverse_append, List.reverse_append, reverse_present, reverse_present]
            simpa only [List.append_assoc] using hu''
        · rw [hfailrun (fun hrest => hn ⟨ho, hrest⟩)]
          rfl
      · rw [hfail ho]
        exact ⟨fun hall => absurd hall.1 ho, fun _ => rfl⟩

theorem layer_eq_nil (hk : t.height ≤ k) : layer t k = [] := by
  refine level_eq_nil ?_
  rwa [← height_map nodeOf, ← stored_eq, height_stored]

/-- Below an empty layer nothing is printed. -/
theorem spiral_below (hk : layer t k = []) (n : Nat) :
    (List.range' k n).flatMap (spiral (t.map Prod.snd)) = [] := by
  refine List.flatMap_eq_nil_iff.mpr fun d hd => ?_
  have hle : k ≤ d := (List.mem_range'_1.mp hd).1
  have hlayer : layer t d = [] := level_eq_nil_of_le hk hle
  rw [spiral, ← map_layer, hlayer]
  exact ite_self _

/-- **From right to left**: the other stack gets the next level, the leftmost node on top. -/
theorem spiralLevel_rtl {sLtr sRtl : Stack.StackT} (hs : Spans h root t) (hl : Piles sLtr [])
    (hr : Piles sRtl (layer t k).reverse) :
    (o.Succeed (layer t (k + 1)).length → ∃ sRtl' sLtr',
      spiralLevel h BinaryTreeNode.right BinaryTreeNode.left (levels h) o sRtl sLtr =
        some ((level (t.map Prod.snd) k).reverse, sRtl', sLtr', o.later (layer t (k + 1)).length) ∧
      Piles sRtl' [] ∧ Piles sLtr' (layer t (k + 1))) ∧
    (¬ o.Succeed (layer t (k + 1)).length →
      spiralLevel h BinaryTreeNode.right BinaryTreeNode.left (levels h) o sRtl sLtr = none) := by
  have hkids : (kids BinaryTree.right BinaryTree.left (layer t k).reverse).reverse = layer t (k + 1) := by
    rw [reverse_kids, List.reverse_reverse, layer_succ]
  have hstored : Stored h (layer t k).reverse := fun s hm => stored_layer hs k s (List.mem_reverse.mp hm)
  have hlt : (layer t k).reverse.length < levels h := by
    rw [List.length_reverse]
    exact Nat.lt_of_le_of_lt (length_layer_le t k) hs.numNodes_lt
  obtain ⟨hok, hfail⟩ := spiralLevel_spec (o := o) leads_right leads_left hr hstored hl hlt
  rw [← List.length_reverse, hkids, List.map_reverse, map_layer, List.append_nil] at hok
  rw [← List.length_reverse, hkids] at hfail
  exact ⟨hok, hfail⟩

/-- **From left to right**: the other stack gets the next level, the rightmost node on top. -/
theorem spiralLevel_ltr {sLtr sRtl : Stack.StackT} (hs : Spans h root t) (hl : Piles sLtr (layer t k))
    (hr : Piles sRtl []) :
    (o.Succeed (layer t (k + 1)).length → ∃ sLtr' sRtl',
      spiralLevel h BinaryTreeNode.left BinaryTreeNode.right (levels h) o sLtr sRtl =
        some (level (t.map Prod.snd) k, sLtr', sRtl', o.later (layer t (k + 1)).length) ∧
      Piles sLtr' [] ∧ Piles sRtl' (layer t (k + 1)).reverse) ∧
    (¬ o.Succeed (layer t (k + 1)).length →
      spiralLevel h BinaryTreeNode.left BinaryTreeNode.right (levels h) o sLtr sRtl = none) := by
  have hlt : (layer t k).length < levels h := Nat.lt_of_le_of_lt (length_layer_le t k) hs.numNodes_lt
  have hlevel := spiralLevel_spec (o := o) leads_left leads_right hl (stored_layer hs k) hr hlt
  rwa [← layer_succ, map_layer, List.append_nil] at hlevel

/-- **Two levels in a round.** -/
theorem spiralLoop_spec {sLtr sRtl : Stack.StackT} (hs : Spans h root t) (heven : k % 2 = 0)
    (hl : Piles sLtr []) (hr : Piles sRtl (layer t k).reverse) (hd : t.height ≤ k + 2 * rounds) :
    (o.Succeed (pending (layer t k)) → spiralLoop h (rounds + 1) o sLtr sRtl =
      some ((List.range' k (2 * rounds)).flatMap (spiral (t.map Prod.snd)))) ∧
    (¬ o.Succeed (pending (layer t k)) → spiralLoop h (rounds + 1) o sLtr sRtl = none) := by
  induction rounds generalizing k sLtr sRtl o with
  | zero =>
    have hnil : layer t k = [] := layer_eq_nil hd
    rw [hnil] at hr ⊢
    rw [spiralLoop, hl.isEmpty_iff.mpr rfl, hr.isEmpty_iff.mpr rfl]
    exact ⟨fun _ => rfl, fun hn => absurd (Outcomes.succeed_zero o) hn⟩
  | succ rounds ih =>
    by_cases hnil : layer t k = []
    · rw [spiral_below hnil]
      rw [hnil] at hr ⊢
      rw [spiralLoop, hl.isEmpty_iff.mpr rfl, hr.isEmpty_iff.mpr rfl]
      exact ⟨fun _ => rfl, fun hn => absurd (Outcomes.succeed_zero o) hn⟩
    · have hempty : (Stack.stackIsEmpty sLtr && Stack.stackIsEmpty sRtl) = false := by
        have hne : ¬ Stack.stackIsEmpty sRtl = true := by
          rw [hr.isEmpty_iff, List.reverse_eq_nil_iff]
          exact hnil
        rw [Bool.eq_false_iff.mpr hne, Bool.and_false]
      rw [pending_layer, pending_layer, Outcomes.succeed_add, Outcomes.succeed_add, spiralLoop, hempty,
        if_neg Bool.false_ne_true]
      obtain ⟨hok, hfail⟩ := spiralLevel_rtl (o := o) hs hl hr
      by_cases ho : o.Succeed (layer t (k + 1)).length
      · obtain ⟨sRtl', sLtr', hrun, hr', hl'⟩ := hok ho
        obtain ⟨hok', hfail'⟩ := spiralLevel_ltr (o := o.later (layer t (k + 1)).length) hs hl' hr'
        rw [hrun]
        simp only [Option.bind_eq_bind, Option.bind_some]
        by_cases ho' : (o.later (layer t (k + 1)).length).Succeed (layer t (k + 1 + 1)).length
        · obtain ⟨sLtr'', sRtl'', hrun', hl'', hr''⟩ := hok' ho'
          obtain ⟨hrest, hfailrest⟩ :=
            ih (o := (o.later (layer t (k + 1)).length).later (layer t (k + 1 + 1)).length)
              (show (k + 1 + 1) % 2 = 0 by omega) hl'' hr'' (by omega)
          rw [hrun', Option.bind_some]
          refine ⟨fun hall => ?_, fun hn => ?_⟩
          · rw [hrest hall.2.2, show 2 * (rounds + 1) = 2 * rounds + 1 + 1 from rfl, List.range'_succ,
              List.range'_succ, List.flatMap_cons, List.flatMap_cons, spiral, if_pos heven, spiral,
              if_neg (by omega)]
            rfl
          · rw [hfailrest (fun hlast => hn ⟨ho, ho', hlast⟩)]
            rfl
        · rw [hfail' ho']
          exact ⟨fun hall => absurd hall.2.1 ho', fun _ => rfl⟩
      · rw [hfail ho]
        exact ⟨fun hall => absurd hall.1 ho, fun _ => rfl⟩

/-! ### The whole tree -/

theorem spiral_map {A B : Type} (f : A → B) (t : BinaryTree A) (d : Nat) :
    spiral (t.map f) d = (spiral t d).map f := by
  rw [spiral, spiral, level_map, ← List.map_reverse]
  exact (apply_ite (List.map f) _ _ _).symm

theorem spiral_perm {A : Type} (t : BinaryTree A) (d : Nat) : (spiral t d).Perm (level t d) := by
  rw [spiral]
  split
  · exact List.reverse_perm _
  · exact .refl _

/-- **The spiral** over all depths has each node once. -/
theorem flatMap_spiral_perm {A : Type} (t : BinaryTree A) :
    ((List.range t.height).flatMap (spiral t)).Perm (levelOrder t) :=
  List.Perm.flatMap_left _ (fun d _ => spiral_perm t d)

theorem spiral_eq_nil {A : Type} {t : BinaryTree A} {d : Nat} (hd : t.height ≤ d) : spiral t d = [] := by
  rw [spiral, level_eq_nil hd]
  exact ite_self _

theorem pending_root (ht : t ≠ .nil) : t.numNodes = pending (layer t 0) + 1 := by
  have hn := numNodes_present t
  rw [layer_zero]
  cases t with
  | nil => exact absurd rfl ht
  | node n l r => exact hn.trans (Nat.add_comm 1 _)

/-- The print of a tree that is not empty, for what the allocations answer. -/
theorem spiralPrint_outcomes (hs : Spans h root t) (links1 links2 : Lib.Store Stack.Node) (ht : t ≠ .nil) :
    (h.outcomes.Succeed (t.numNodes + 2) → binaryTreeLevelOrderSpiralPrint links1 links2 h root =
      some (((List.range t.height).flatMap (spiral t)).map Prod.snd)) ∧
    (¬ h.outcomes.Succeed (t.numNodes + 2) →
      binaryTreeLevelOrderSpiralPrint links1 links2 h root = none) := by
  have hcount : t.numNodes + 2 = pending (layer t 0) + 1 + 1 + 1 := by rw [pending_root ht]
  rw [binaryTreeLevelOrderSpiralPrint, hs.root, isNone_ptr ht, if_neg Bool.false_ne_true, hcount,
    Outcomes.succeed_succ, Outcomes.succeed_succ, Outcomes.succeed_succ]
  by_cases h₁ : h.outcomes.first = true
  · obtain ⟨sLtr, hcreate, hk, hout⟩ := Stack.keeps_create links1 h₁
    rw [hcreate, Option.bind_eq_bind, Option.bind_some, hout]
    by_cases h₂ : h.outcomes.rest.first = true
    · obtain ⟨sRtl, hcreate₂, hk₂, hout₂⟩ := Stack.keeps_create links2 h₂
      rw [hcreate₂, Option.bind_eq_bind, Option.bind_some, hout₂]
      by_cases h₃ : h.outcomes.rest.rest.first = true
      · obtain ⟨sRtl', hpush, hp⟩ := pushRoot hk₂ h₃ ht
        have hlayer : (layer t 0).reverse = [t] := by
          rw [layer_zero, reverse_present]
          cases t with
          | nil => exact absurd rfl ht
          | node n l r => rfl
        rw [← hlayer] at hp
        have hd : t.height ≤ 0 + 2 * h.next := by
          have hlt := hs.height_lt
          rw [levels] at hlt
          omega
        have hl : Piles sLtr [] := ⟨⟨[], hk, rfl⟩, fun _ hm => absurd hm List.not_mem_nil⟩
        obtain ⟨hok, hfail⟩ := spiralLoop_spec (o := h.outcomes.rest.rest.rest) hs rfl hl hp hd
        rw [hpush, Option.bind_some]
        refine ⟨fun hall => ?_, fun hn => hfail (fun hrest => hn ⟨h₁, h₂, h₃, hrest⟩)⟩
        have hmap : spiral (t.map Prod.snd) = fun d => (spiral t d).map Prod.snd := by
          funext d
          exact spiral_map _ _ _
        refine (hok hall.2.2.2).trans ?_
        rw [hmap, ← List.map_flatMap, ← List.range_eq_range',
          flatMap_range_eq (fun _ hd => spiral_eq_nil hd) (by omega : t.height ≤ 2 * h.next)]
      · rw [pushNext_refused h₃]
        exact ⟨fun hall => absurd hall.2.2.1 h₃, fun _ => rfl⟩
    · rw [Stack.stackCreate, if_neg h₂]
      exact ⟨fun hall => absurd hall.2.1 h₂, fun _ => rfl⟩
  · rw [Stack.stackCreate, if_neg h₁]
    exact ⟨fun hall => absurd hall.1 h₁, fun _ => rfl⟩

/-- **The spiral print** goes through each depth once, the even ones from right to left and the odd
ones from left to right, if no allocation is refused; otherwise an assertion fails. -/
theorem binaryTreeLevelOrderSpiralPrint_spec (hs : Spans h root t) (links1 links2 : Lib.Store Stack.Node) :
    (t = .nil ∨ h.outcomes.Succeed (t.numNodes + 2) →
      binaryTreeLevelOrderSpiralPrint links1 links2 h root =
        some (((List.range t.height).flatMap (spiral t)).map Prod.snd)) ∧
    ((List.range t.height).flatMap (spiral t)).Perm (levelOrder t) ∧
    ((levelOrder t).map Prod.fst).Nodup ∧
    (t ≠ .nil → ¬ h.outcomes.Succeed (t.numNodes + 2) →
      binaryTreeLevelOrderSpiralPrint links1 links2 h root = none) := by
  refine ⟨?_, flatMap_spiral_perm t, hs.nodup, fun ht => (spiralPrint_outcomes hs links1 links2 ht).2⟩
  rcases eq_or_ne t .nil with rfl | ht
  · rw [hs.root]
    exact fun _ => rfl
  · exact fun ho => (spiralPrint_outcomes hs links1 links2 ht).1 (ho.resolve_left ht)

theorem binaryTreeLevelOrderSpiralPrint_bent :
    binaryTreeLevelOrderSpiralPrint selfLinks selfLinks bent (some 0) = some [5, 7, 5] :=
  (binaryTreeLevelOrderSpiralPrint_spec spans_bent selfLinks selfLinks).1 (Or.inr (Outcomes.succeed_allOk _))

end DataStructures.BinaryTree
