import DataStructures.Lib.Rebuild
import DataStructures.Tree.Binary.Problems
import DataStructures.Tree.Binary.Shape

/-!
# A tree from its traversals

`binary_tree_by_traversals` follows the relation `Rebuilds` of the library
(`byTraversalsHelper_spec`), with three allocations for each node.
-/

namespace DataStructures.BinaryTree

open Lib LevelOrder Traversals Rebuild

variable {h h' h₁ h₂ : Heap} {ins lvl part left right buf : List Int} {x : Int} {capacity depth : Nat}
  {t l r : BinaryTree Int} {s sl sr : Tree} {root : Ptr}

/-! ### The buffers -/

theorem appendMatches_eq (hbuf : buf.length ≤ capacity) :
    appendMatches capacity x part buf =
      if (buf ++ List.replicate (part.count x) x).length ≤ capacity
      then some (buf ++ List.replicate (part.count x) x) else none := by
  induction part generalizing buf with
  | nil =>
    rw [List.count_nil, List.replicate_zero, List.append_nil, if_pos hbuf]
    rfl
  | cons y part ih =>
    rw [appendMatches, List.count_cons]
    by_cases hxy : x = y
    · rw [if_pos hxy, if_pos (beq_iff_eq.mpr hxy.symm), List.replicate_succ, append]
      by_cases hroom : buf.length < capacity
      · have hlen : (buf ++ [x]).length ≤ capacity := by
          rw [List.length_append]
          exact hroom
        rw [if_pos hroom]
        refine (ih hlen).trans ?_
        rw [List.append_assoc]
        rfl
      · rw [if_neg hroom, if_neg (by simp only [List.length_append, List.length_cons]; omega)]
        rfl
    · rw [if_neg hxy, if_neg (mt beq_iff_eq.mp (Ne.symm hxy))]
      exact ih hbuf

/-- **What is selected is written**, if there is room for it. -/
theorem fillLvlOrder_eq (hbuf : buf.length ≤ capacity) : fillLvlOrder capacity part lvl buf =
    if (buf ++ select part lvl).length ≤ capacity then some (buf ++ select part lvl) else none := by
  induction lvl generalizing buf with
  | nil =>
    rw [select, List.flatMap_nil, List.append_nil, if_pos hbuf]
    rfl
  | cons x lvl ih =>
    rw [fillLvlOrder, appendMatches_eq hbuf, select, List.flatMap_cons, ← select, ← List.append_assoc]
    by_cases hfit : (buf ++ List.replicate (part.count x) x).length ≤ capacity
    · rw [if_pos hfit, Option.bind_eq_bind, Option.bind_some, ih hfit]
    · rw [if_neg hfit, if_neg]
      · rfl
      · rw [List.length_append]
        omega

theorem treeLvlOrder_eq (h : Heap) (hfit : (select part lvl).length ≤ ins.length) :
    treeLvlOrder h ins part (x :: lvl) =
      some (if h.outcomes.first then some (select part lvl) else none, h.ask.2) := by
  rw [treeLvlOrder, List.tail_cons, fillLvlOrder_eq (Nat.zero_le _), List.nil_append, if_pos hfit]
  cases hfirst : h.outcomes.first with
  | true => rw [if_pos (show h.ask.1 = true from hfirst), if_pos rfl]; rfl
  | false =>
    rw [if_neg (show ¬ h.ask.1 = true by rw [show h.ask.1 = false from hfirst]; exact Bool.false_ne_true),
      if_neg Bool.false_ne_true]

/-- A buffer that is filled has had room. -/
theorem treeLvlOrder_some (hrun : treeLvlOrder h ins part (x :: lvl) = some (some buf, h')) :
    buf = select part lvl ∧ (select part lvl).length ≤ ins.length := by
  rw [treeLvlOrder, List.tail_cons, fillLvlOrder_eq (Nat.zero_le _), List.nil_append] at hrun
  by_cases ho : h.ask.1 = true
  · rw [if_pos ho] at hrun
    by_cases hfit : (select part lvl).length ≤ ins.length
    · rw [if_pos hfit] at hrun
      cases hrun
      exact ⟨rfl, hfit⟩
    · rw [if_neg hfit] at hrun
      cases hrun
  · rw [if_neg ho] at hrun
    cases hrun

/-- The root's index in in-order. -/
theorem findIdx?_root (hins : ins = left ++ x :: right) (hx : x ∉ left) :
    ins.findIdx? (· == x) = some left.length ∧ ins.take left.length = left ∧
      ins.drop (left.length + 1) = right := by
  subst hins
  refine ⟨?_, List.take_left' rfl, ?_⟩
  · rw [List.findIdx?_append, List.findIdx?_eq_none_iff.mpr, List.findIdx?_cons]
    · simp
    · intro y hy
      rw [beq_eq_false_iff_ne]
      rintro rfl
      exact hx hy
  · rw [List.drop_append]
    simp

/-! ### The nodes -/

/-- From `h` to `h'` the tree has been built, in new nodes. -/
structure Builds (h h' : Heap) (s : Tree) : Prop where
  node : ∀ m ∈ levelOrder (stored s), h'.cells m.1 = some m.2
  above : ∀ a ∈ (levelOrder s).map Prod.fst, h.next ≤ a
  nodup : ((levelOrder s).map Prod.fst).Nodup
  old : ∀ a < h.next, h'.cells a = h.cells a
  next : h.next ≤ h'.next

theorem Builds.nil (h : Heap) : Builds h h .nil :=
  ⟨fun _ hm => absurd hm List.not_mem_nil, fun _ ha => absurd ha List.not_mem_nil, List.nodup_nil,
    fun _ _ => rfl, Nat.le_refl _⟩

theorem Builds.spans (hb : Builds h h' s) : Spans h' (ptr s) s := ⟨rfl, hb.node, hb.nodup⟩

/-- The new nodes lie below the next address. -/
theorem Builds.below (hb : Builds h h' s) {a : Nat} (ha : a ∈ (levelOrder s).map Prod.fst) : a < h'.next := by
  rw [← addrs_stored] at ha
  obtain ⟨m, hm, rfl⟩ := List.mem_map.mp ha
  exact Memory.lt_next (hb.node m hm)

/-- What is created is new, and nothing else changes. -/
theorem create_cells (ho : h.outcomes.first = true) (x : Int) : ∃ h',
    binaryTreeNodeCreate h x = (some h.next, h') ∧ h'.cells h.next = some ⟨x, none, none⟩ ∧
      (∀ a < h.next, h'.cells a = h.cells a) ∧ h'.next = h.next + 1 ∧ h'.outcomes = h.outcomes.rest := by
  obtain ⟨h', hm, hself, hother, hnext, hout⟩ := Memory.malloc_ok ho ⟨x, none, none⟩
  exact ⟨h', hm, hself, fun a ha => hother a (Nat.ne_of_lt ha), hnext, hout⟩

/-- **A node with its subtrees**: `h₁` is the memory with the node, `h₂` the one with the left
subtree attached. -/
theorem Builds.attach {h₃ : Heap} (hold : ∀ a < h.next, h₁.cells a = h.cells a) (hnext : h₁.next = h.next + 1) (hl : Builds h₁ h₂ sl)
    (h₃cells : h₃.cells = Function.update h₂.cells h.next (some ⟨x, ptr sl, none⟩))
    (h₃next : h₃.next = h₂.next) {h₄ h₅ : Heap} (hr : Builds h₃ h₄ sr)
    (h₅cells : h₅.cells = Function.update h₄.cells h.next (some ⟨x, ptr sl, ptr sr⟩))
    (h₅next : h₅.next = h₄.next) : Builds h h₅ (.node (h.next, x) sl sr) := by
  have hle₂ := hl.next
  have hle₄ := hr.next
  -- a node below the right subtree
  have hkeep : ∀ a < h₃.next, a ≠ h.next → h₅.cells a = h₂.cells a := by
    intro a ha hne
    rw [h₅cells, Function.update_of_ne hne, hr.old a ha, h₃cells, Function.update_of_ne hne]
  refine ⟨forall_mem_levelOrder_node.mpr ⟨?_, fun m hm => ?_, fun m hm => ?_⟩, ?_, ?_, ?_, by omega⟩
  · rw [h₅cells]
    exact Function.update_self ..
  · have hcell := hl.node m hm
    have hmem : m.1 ∈ (levelOrder sl).map Prod.fst := by
      rw [← addrs_stored]
      exact List.mem_map_of_mem hm
    have habove := hl.above _ hmem
    have hlt := Memory.lt_next hcell
    rw [hkeep m.1 (by omega) (by omega), hcell]
  · have hmem : m.1 ∈ (levelOrder sr).map Prod.fst := by
      rw [← addrs_stored]
      exact List.mem_map_of_mem hm
    have habove := hr.above _ hmem
    rw [h₅cells, Function.update_of_ne (by omega), hr.node m hm]
  · intro a ha
    obtain ⟨m, hm, rfl⟩ := List.mem_map.mp ha
    rcases mem_levelOrder_node.mp hm with rfl | hm | hm
    · exact Nat.le_refl _
    · have habove := hl.above _ (List.mem_map_of_mem hm)
      omega
    · have habove := hr.above _ (List.mem_map_of_mem hm)
      omega
  · refine nodup_node.mpr ⟨⟨fun hm => ?_, fun hm => ?_⟩, ?_⟩
    · have habove := hl.above _ hm
      dsimp only at habove
      omega
    · have habove := hr.above _ hm
      dsimp only at habove
      omega
    · refine List.nodup_append.mpr ⟨hl.nodup, hr.nodup, fun a ha b hb => ?_⟩
      have hbelow := hl.below ha
      have habove := hr.above b hb
      omega
  · intro a ha
    rw [hkeep a (by omega) (by omega), hl.old a (by omega), hold a ha]

/-! ### The recursion -/

/-- A node takes three allocations, before those of its subtrees. -/
theorem succeed_node {o : Outcomes} {x : Int} : o.Succeed (3 * (BinaryTree.node x l r).numNodes) ↔
    (o.first = true ∧ o.rest.first = true ∧ o.rest.rest.first = true) ∧
      (o.later 3).Succeed (3 * l.numNodes) ∧ (o.later (3 + 3 * l.numNodes)).Succeed (3 * r.numNodes) := by
  have hcount : 3 * (BinaryTree.node x l r).numNodes = 3 + 3 * l.numNodes + 3 * r.numNodes := by
    rw [BinaryTree.numNodes]
    omega
  rw [hcount, Outcomes.succeed_add, Outcomes.succeed_add, Outcomes.succeed_succ, Outcomes.succeed_succ,
    Outcomes.succeed_succ]
  simp only [Outcomes.succeed_zero, and_true, and_assoc]

/-- The code at a node, up to the recursion. -/
theorem byTraversalsHelper_node (hins : ins = left ++ x :: right) (hx : x ∉ left)
    (hleft : (select left lvl).length ≤ ins.length) (hright : (select right lvl).length ≤ ins.length) :
    binaryTreeByTraversalsHelper ins (depth + 1) h (x :: lvl) =
      if h.outcomes.first = true ∧ h.outcomes.rest.first = true ∧ h.outcomes.rest.rest.first = true then do
        let h₁ := (binaryTreeNodeCreate h x).2.ask.2.ask.2
        let (l, h₂) ← binaryTreeByTraversalsHelper ins depth h₁ (select left lvl)
        let h₃ ← setLeft h₂ (some h.next) l
        let (r, h₄) ← binaryTreeByTraversalsHelper ins depth h₃ (select right lvl)
        let h₅ ← setRight h₄ (some h.next) r
        return (some h.next, h₅)
      else none := by
  obtain ⟨hidx, htake, hdrop⟩ := findIdx?_root hins hx
  rw [binaryTreeByTraversalsHelper]
  by_cases ho : h.outcomes.first = true
  · obtain ⟨h₀, hcr, -, -, -, hout⟩ := create_cells ho x
    rw [hcr]
    simp only [Option.isNone_some, Bool.false_eq_true, if_false, hidx, Option.bind_eq_bind,
      Option.bind_some, leftTreeLvlOrder, rightTreeLvlOrder, htake, hdrop, treeLvlOrder_eq _ hleft,
      treeLvlOrder_eq _ hright, hout, Memory.ask, ho, true_and]
    by_cases hol : h.outcomes.rest.first = true
    · by_cases hor : h.outcomes.rest.rest.first = true
      · rw [if_pos hol, if_pos hor, if_pos ⟨hol, hor⟩]
        rfl
      · rw [if_pos hol, if_neg hor, if_neg (not_and_of_not_right _ hor)]
        simp only [Option.bind_none, Option.bind_fun_none]
    · rw [if_neg hol, if_neg (not_and_of_not_left _ hol)]
      rfl
  · rw [binaryTreeNodeCreate, Memory.malloc_fail (Bool.not_eq_true _ ▸ ho)]
    simp [ho]

/-- **The recursion follows `Rebuilds`**, if no allocation is refused. -/
theorem byTraversalsHelper_spec (hb : Rebuilds ins lvl t) (hd : t.height < depth) (h : Heap) :
    (h.outcomes.Succeed (3 * t.numNodes) → ∃ s h',
      binaryTreeByTraversalsHelper ins depth h lvl = some (ptr s, h') ∧ s.map Prod.snd = t ∧
        Builds h h' s ∧ h'.outcomes = h.outcomes.later (3 * t.numNodes)) ∧
    (¬ h.outcomes.Succeed (3 * t.numNodes) → binaryTreeByTraversalsHelper ins depth h lvl = none) := by
  induction hb generalizing depth h with
  | nil =>
    obtain ⟨depth, rfl⟩ := Nat.exists_eq_add_of_lt hd
    exact ⟨fun _ => ⟨.nil, h, rfl, rfl, .nil h, rfl⟩, fun hn => absurd (Outcomes.succeed_zero _) hn⟩
  | @node left right lvl x l r hins hx hleft hright hl hr ihl ihr =>
    cases depth with
    | zero => exact absurd hd (Nat.not_lt_zero _)
    | succ depth =>
      rw [BinaryTree.height] at hd
      have hdl : l.height < depth := by omega
      have hdr : r.height < depth := by omega
      rw [byTraversalsHelper_node hins hx hleft hright, succeed_node]
      by_cases ho : h.outcomes.first = true ∧ h.outcomes.rest.first = true ∧
        h.outcomes.rest.rest.first = true
      · obtain ⟨h₀, hcr, hself, hold, hnext, hout⟩ := create_cells ho.1 x
        rw [if_pos ho, hcr]
        dsimp only
        have ho₁ : h₀.ask.2.ask.2.outcomes = h.outcomes.later 3 := by
          rw [Memory.ask, Memory.ask, hout]
          rfl
        obtain ⟨hlok, hlfail⟩ := ihl hdl h₀.ask.2.ask.2
        rw [ho₁] at hlok hlfail
        by_cases hol : (h.outcomes.later 3).Succeed (3 * l.numNodes)
        · obtain ⟨sl, h₂, hrunl, hsl, hbl, ho₂⟩ := hlok hol
          have hnode : h₂.cells h.next = some ⟨x, none, none⟩ := by
            rw [hbl.old h.next (by rw [show h₀.ask.2.ask.2.next = h.next + 1 from hnext]; omega)]
            exact hself
          obtain ⟨h₃, hset, h₃cells, h₃next, h₃out⟩ := setLeft_spec hnode (ptr sl)
          rw [hrunl]
          simp only [Option.bind_eq_bind, Option.bind_some, hset]
          obtain ⟨hrok, hrfail⟩ := ihr hdr h₃
          rw [h₃out, ho₂, Outcomes.later_later] at hrok hrfail
          by_cases hor : (h.outcomes.later (3 + 3 * l.numNodes)).Succeed (3 * r.numNodes)
          · obtain ⟨sr, h₄, hrunr, hsr, hbr, ho₄⟩ := hrok hor
            have hlt : h.next < h₃.next := by
              have hle := hbl.next
              rw [h₃next]
              exact Nat.lt_of_lt_of_le (show h.next < h₀.next by omega) hle
            have hnode' : h₄.cells h.next = some ⟨x, ptr sl, none⟩ := by
              rw [hbr.old h.next hlt, h₃cells]
              exact Function.update_self ..
            obtain ⟨h₅, hset', h₅cells, h₅next, h₅out⟩ := setRight_spec hnode' (ptr sr)
            rw [hrunr]
            simp only [Option.bind_some, hset']
            refine ⟨fun _ => ⟨.node (h.next, x) sl sr, h₅, rfl, ?_, ?_, ?_⟩, fun hn => absurd ⟨ho, hol, hor⟩ hn⟩
            · rw [BinaryTree.map, hsl, hsr]
            · have hold₁ : ∀ a < h.next, h₀.ask.2.ask.2.cells a = h.cells a := hold
              exact Builds.attach hold₁ hnext hbl h₃cells h₃next hbr h₅cells h₅next
            · rw [h₅out, ho₄, Outcomes.later_later, BinaryTree.numNodes]
              congr 1
              omega
          · rw [hrfail hor]
            exact ⟨fun hn => absurd hn.2.2 hor, fun _ => rfl⟩
        · rw [hlfail hol]
          exact ⟨fun hn => absurd hn.2.1 hol, fun _ => rfl⟩
      · rw [if_neg ho]
        exact ⟨fun hn => absurd hn.1 ho, fun _ => rfl⟩

/-- **What ends has followed `Rebuilds`.** -/
theorem rebuilds_of_run (hrun : binaryTreeByTraversalsHelper ins depth h lvl = some (root, h')) :
    ∃ t, Rebuilds ins lvl t ∧ t.height < depth := by
  induction depth generalizing h lvl root h' with
  | zero => cases hrun
  | succ depth ih =>
    cases lvl with
    | nil => exact ⟨.nil, .nil, Nat.succ_pos _⟩
    | cons x lvl =>
      rw [binaryTreeByTraversalsHelper] at hrun
      generalize binaryTreeNodeCreate h x = created at hrun
      obtain ⟨node, h₀⟩ := created
      cases node with
      | none => cases hrun
      | some a =>
        dsimp only at hrun
        rw [Option.isNone_some, if_neg Bool.false_ne_true] at hrun
        by_cases hmem : x ∈ ins
        · obtain ⟨left, right, hins, hx⟩ := List.eq_append_cons_of_mem hmem
          obtain ⟨hidx, htake, hdrop⟩ := findIdx?_root hins hx
          simp only [hidx, Option.bind_eq_bind, Option.bind_some, leftTreeLvlOrder, rightTreeLvlOrder,
            htake, hdrop, Option.bind_eq_some_iff] at hrun
          obtain ⟨⟨buf, h₁⟩, hl, ⟨buf', h₂⟩, hr, llvl, rfl, ⟨l, h₃⟩, hrunl, h₄, -, rlvl, rfl, ⟨r, h₅⟩, hrunr, -⟩ := hrun
          obtain ⟨rfl, hfitl⟩ := treeLvlOrder_some hl
          obtain ⟨rfl, hfitr⟩ := treeLvlOrder_some hr
          obtain ⟨tl, htl, hdl⟩ := ih hrunl
          obtain ⟨tr, htr, hdr⟩ := ih hrunr
          refine ⟨.node x tl tr, .node hins hx hfitl hfitr htl htr, ?_⟩
          rw [BinaryTree.height]
          omega
        · -- the root is not found
          have hidx : ins.findIdx? (· == x) = none := by
            refine List.findIdx?_eq_none_iff.mpr fun y hy => beq_eq_false_iff_ne.mpr ?_
            rintro rfl
            exact hmem hy
          rw [hidx] at hrun
          cases hrun

/-! ### The tree that is returned -/

/-- The memory holds one tree at most from a root on. -/
theorem eq_of_stored {s' : Tree} (hs : ∀ m ∈ levelOrder (stored s), h.cells m.1 = some m.2)
    (hs' : ∀ m ∈ levelOrder (stored s'), h.cells m.1 = some m.2) (hptr : ptr s = ptr s') : s = s' := by
  induction s generalizing s' with
  | nil => exact (ptr_eq_none.mp hptr.symm).symm
  | node n l r ihl ihr =>
    cases s' with
    | nil => cases hptr
    | node n' l' r' =>
      obtain ⟨hn, hl, hr⟩ := forall_mem_levelOrder_node.mp hs
      obtain ⟨hn', hl', hr'⟩ := forall_mem_levelOrder_node.mp hs'
      have haddr : n.1 = n'.1 := Option.some.inj hptr
      simp only [nodeOf, haddr] at hn hn'
      rw [hn, Option.some.injEq, BinaryTreeNode.mk.injEq] at hn'
      obtain ⟨hdata, hleft, hright⟩ := hn'
      rw [ihl hl hl' hleft, ihr hr hr' hright, Prod.ext haddr hdata]

theorem Spans.unique {s' : Tree} (hs : Spans h root s) (hs' : Spans h root s') : s = s' :=
  eq_of_stored hs.node hs'.node (hs.root.symm.trans hs'.root)

/-- Arrays that are a tree's traversals pass the validation. -/
theorem byTraversals_eq (depth : Nat) (h : Heap) (hlen : ins.length = lvl.length)
    (hall : ∀ x ∈ ins, x ∈ lvl) :
    binaryTreeByTraversals depth h ins lvl = binaryTreeByTraversalsHelper ins depth h lvl := by
  have hcontains : ins.all (fun x => lvl.contains x) = true :=
    List.all_eq_true.mpr fun x hx => List.contains_iff_mem.mpr (hall x hx)
  rw [binaryTreeByTraversals, if_neg (fun hne => hne hlen), if_pos hcontains]

theorem byTraversals_orders (depth : Nat) (h : Heap) (t : BinaryTree Int) :
    binaryTreeByTraversals depth h (inOrder t) (levelOrder t) =
      binaryTreeByTraversalsHelper (inOrder t) depth h (levelOrder t) :=
  byTraversals_eq depth h (inOrder_perm t).length_eq (fun _ hx => (inOrder_perm t).mem_iff.mp hx)

/-- **Reconstruction undoes traversal**: a tree without repeated values is built again, in new
nodes, if no allocation is refused. -/
theorem binaryTreeByTraversals_undoes (t : BinaryTree Int) (hnd : (inOrder t).Nodup) (h : Heap)
    (hd : t.height < depth) :
    (h.outcomes.Succeed (3 * t.numNodes) → ∃ root h' s,
      binaryTreeByTraversals depth h (inOrder t) (levelOrder t) = some (root, h') ∧
        Spans h' root s ∧ s.map Prod.snd = t ∧ ∀ a < h.next, h'.cells a = h.cells a) ∧
    (¬ h.outcomes.Succeed (3 * t.numNodes) →
      binaryTreeByTraversals depth h (inOrder t) (levelOrder t) = none) := by
  have hb : Rebuilds (inOrder t) (levelOrder t) t := Regular.rebuilds (Or.inl hnd)
  obtain ⟨hok, hfail⟩ := byTraversalsHelper_spec hb hd h
  rw [byTraversals_orders]
  refine ⟨fun ho => ?_, hfail⟩
  obtain ⟨s, h', hrun, hs, hbuilds, -⟩ := hok ho
  exact ⟨ptr s, h', s, hrun, hbuilds.spans, hs, hbuilds.old⟩

/-- A tree of three nodes is built again. -/
theorem binaryTreeByTraversals_undoes_three : ∃ root h' s,
    binaryTreeByTraversals 3 (.empty .allOk) [1, 2, 3] [2, 1, 3] = some (root, h') ∧ Spans h' root s ∧
      s.map Prod.snd = .node 2 (.node 1 .nil .nil) (.node 3 .nil .nil) := by
  have hd : (BinaryTree.node (2 : Int) (.node 1 .nil .nil) (.node 3 .nil .nil)).height < 3 := by decide
  obtain ⟨root, h', s, hrun, hs, ht, -⟩ :=
    (binaryTreeByTraversals_undoes _ (by decide) (.empty .allOk) hd).1 (Outcomes.succeed_allOk _)
  exact ⟨root, h', s, hrun, hs, ht⟩

/-! ### The validation of the arrays -/

/-- **The arrays are validated**: the function ends, and what it returns is NULL or a tree with
these traversals. -/
def Validates (h : Heap) (ins lvl : List Int) : Prop := ∃ depth root h',
  binaryTreeByTraversals depth h ins lvl = some (root, h') ∧
    (root = none ∨ ∃ s, Spans h' root s ∧ inOrder (s.map Prod.snd) = ins ∧ levelOrder (s.map Prod.snd) = lvl)

/-- What is returned, where the arrays pass the validation. -/
theorem Validates.regular (hv : Validates h ins lvl) (hlen : ins.length = lvl.length)
    (hall : ∀ x ∈ ins, x ∈ lvl) : (∃ t, inOrder t = ins ∧ levelOrder t = lvl ∧ Regular t) ∧
      h.outcomes.Succeed (3 * ins.length) := by
  obtain ⟨depth, root, h', hrun, hres⟩ := hv
  rw [byTraversals_eq depth h hlen hall] at hrun
  obtain ⟨t, hb, hd⟩ := rebuilds_of_run hrun
  obtain ⟨hok, hfail⟩ := byTraversalsHelper_spec hb hd h
  by_cases ho : h.outcomes.Succeed (3 * t.numNodes)
  · obtain ⟨s, h'', hrun', hst, hbuilds, -⟩ := hok ho
    rw [hrun', Option.some.injEq, Prod.mk.injEq] at hrun
    obtain ⟨rfl, rfl⟩ := hrun
    have horders : inOrder t = ins ∧ levelOrder t = lvl := by
      rcases hres with hnull | ⟨s', hs', hin, hlvl⟩
      · obtain rfl := ptr_eq_none.mp hnull
        subst hst
        cases hb
        exact ⟨(List.length_eq_zero_iff.mp hlen).symm, rfl⟩
      · rw [← hst, hbuilds.spans.unique hs']
        exact ⟨hin, hlvl⟩
    obtain ⟨rfl, rfl⟩ := horders
    refine ⟨⟨t, rfl, rfl, hb.regular⟩, ?_⟩
    rwa [length_inOrder]
  · rw [hfail ho] at hrun
    cases hrun

/-- **The arrays are validated exactly when** one test finds them out, or they are the traversals of
one tree that is regular, and no allocation is refused. -/
theorem validates_iff (h : Heap) (ins lvl : List Int) : Validates h ins lvl ↔
    ins.length ≠ lvl.length ∨ (∃ x ∈ ins, x ∉ lvl) ∨
      (∃ t, inOrder t = ins ∧ levelOrder t = lvl ∧ Regular t) ∧ h.outcomes.Succeed (3 * ins.length) := by
  by_cases hlen : ins.length = lvl.length
  · by_cases hall : ∀ x ∈ ins, x ∈ lvl
    · constructor
      · exact fun hv => Or.inr (Or.inr (hv.regular hlen hall))
      · rintro (hne | ⟨x, hx, hnot⟩ | ⟨⟨t, rfl, rfl, hreg⟩, ho⟩)
        · exact absurd hlen hne
        · exact absurd (hall x hx) hnot
        · rw [length_inOrder] at ho
          obtain ⟨s, h', hrun, hst, hbuilds, -⟩ :=
            (byTraversalsHelper_spec hreg.rebuilds (Nat.lt_succ_self t.height) h).1 ho
          refine ⟨t.height + 1, ptr s, h', ?_, Or.inr ⟨s, hbuilds.spans, ?_, ?_⟩⟩
          · rw [byTraversals_orders, hrun]
          · rw [hst]
          · rw [hst]
    · have hnot : ¬ ins.all (fun x => lvl.contains x) = true := by
        rw [List.all_eq_true]
        exact fun hc => hall fun x hx => List.contains_iff_mem.mp (hc x hx)
      have hmissing : ∃ x ∈ ins, x ∉ lvl := by
        simpa only [not_forall, exists_prop] using hall
      refine ⟨fun _ => Or.inr (Or.inl hmissing), fun _ => ⟨0, none, h, ?_, Or.inl rfl⟩⟩
      rw [binaryTreeByTraversals, if_neg (fun hne => hne hlen), if_neg hnot]
  · refine ⟨fun _ => Or.inl hlen, fun _ => ⟨0, none, h, ?_, Or.inl rfl⟩⟩
    rw [binaryTreeByTraversals, if_pos hlen]

/-- No tree has the in-order 1, 1 and the level order 1, 2, but they are taken for one's. -/
theorem not_validates_one_two : ¬ Validates (.empty .allOk) [1, 1] [1, 2] := by
  intro hv
  obtain ⟨⟨t, hin, hlvl, -⟩, -⟩ := hv.regular rfl (by decide)
  have hperm := inOrder_perm t
  rw [hin, hlvl] at hperm
  exact absurd hperm (by decide)

end DataStructures.BinaryTree
