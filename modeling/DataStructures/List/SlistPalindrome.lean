import DataStructures.List.SlistChain

/-!
# Palindromes

`slist_is_palindrome` compares on the way back from the end of the list.  `*left` is a cursor
that all the calls share: when the call for the last but `i`-th node gets to its comparison, the
calls below it have moved the cursor by `i` nodes, unless one of them has found a mismatch.

`slistIsPalindrome_from` is that, by induction on what lies behind `right`; the cursor stands in
any chain that is long enough.
-/

namespace DataStructures.Slist

open Lib

variable {D : Type}

/-- `slist_is_palindrome`, with at most `depth` calls inside each other: what it returns, `*left`
and the memory. -/
def slistIsPalindrome (cmp : D → D → Int) : Nat → Heap D → Ptr → Ptr →
    Option (Bool × Ptr × Heap D)
  | 0, _, _, _ => none
  | depth + 1, h, left, right => do
      if right.isNone then return (true, left, h)
      let rightNode ← h.mem.load right
      let (rest, left, h) ← slistIsPalindrome cmp depth h left rightNode.next
      if rest = false then return (false, left, h)
      let leftNode ← h.mem.load left
      let rightNode ← h.mem.load right
      let res := if cmp leftNode.data rightNode.data ≠ 0 then false else true
      return (res, leftNode.next, h)

/-- The first nodes of `l` match the nodes of `r` from its end on. -/
def Mirrors (cmp : D → D → Int) (l r : List (Nat × D)) : Prop :=
  ∀ i m n, i < r.length → l[i]? = some m → r[r.length - 1 - i]? = some n → cmp m.2 n.2 = 0

variable {cmp : D → D → Int} {h : Heap D} {left right q : Ptr} {l r : List (Nat × D)} {m n : Nat × D}

/-- One call more compares with the node the cursor has come to. -/
theorem mirrors_cons (hm : l[r.length]? = some m) :
    Mirrors cmp l (n :: r) ↔ Mirrors cmp l r ∧ cmp m.2 n.2 = 0 := by
  constructor
  · intro hmir
    refine ⟨fun i x y hi hx hy => ?_, ?_⟩
    · refine hmir i x y (Nat.lt_succ_of_lt hi) hx ?_
      rw [List.length_cons, show r.length + 1 - 1 - i = r.length - 1 - i + 1 by omega,
        List.getElem?_cons_succ, hy]
    · refine hmir r.length m n (Nat.lt_succ_self _) hm ?_
      rw [List.length_cons, Nat.add_sub_cancel, Nat.sub_self, List.getElem?_cons_zero]
  · rintro ⟨hmir, hcmp⟩ i x y hi hx hy
    rw [List.length_cons, Nat.add_sub_cancel] at hy
    by_cases hlast : i = r.length
    · subst hlast
      rw [Nat.sub_self, List.getElem?_cons_zero, Option.some.injEq] at hy
      rw [hm, Option.some.injEq] at hx
      rwa [← hx, ← hy]
    · rw [List.length_cons] at hi
      have hlt : i < r.length := by omega
      rw [show r.length - i = r.length - 1 - i + 1 by omega, List.getElem?_cons_succ] at hy
      exact hmir i x y hlt hx hy

variable (cmp) in
/-- **From `right` on**, with the cursor in a chain that is long enough: the call looks at no null
and no dangling pointer, leaves the memory as it is, and says whether the two chains match.  If
they do, the cursor has moved by as many nodes as lie behind `right`. -/
theorem slistIsPalindrome_from (hr : Seg h.mem.cells right r none) : ∀ {depth : Nat} {left : Ptr},
    r.length < depth → Seg h.mem.cells left l q → r.length ≤ l.length →
    ∃ res left', slistIsPalindrome cmp depth h left right = some (res, left', h) ∧
      (res = true ↔ Mirrors cmp l r) ∧
      (res = true → Seg h.mem.cells left' (l.drop r.length) q) := by
  induction r generalizing right with
  | nil =>
    intro depth left hd hl _
    obtain ⟨depth, rfl⟩ := Nat.exists_eq_add_of_lt hd
    obtain rfl : right = none := hr
    refine ⟨true, left, rfl, ⟨fun _ i m n hi => absurd hi (Nat.not_lt_zero i), fun _ => rfl⟩, ?_⟩
    exact fun _ => hl
  | cons n r ih =>
    intro depth left hd hl hle
    rw [List.length_cons] at hd hle
    obtain ⟨depth, rfl⟩ : ∃ k, depth = k + 1 := ⟨depth - 1, by omega⟩
    obtain ⟨rfl, next, hn, hr⟩ := hr
    have hd' : r.length < depth := by omega
    obtain ⟨res, left', hrun, hres, hleft⟩ := ih hr hd' hl (by omega)
    have hload : h.mem.load (some n.1) = some ⟨n.2, next⟩ := hn
    -- the node the cursor stands at, when the call behind has found no mismatch
    have hm : l[r.length]? = some l[r.length] := List.getElem?_eq_getElem hle
    have hdrop : l.drop r.length = l[r.length] :: l.drop (r.length + 1) :=
      List.drop_eq_getElem_cons hle
    rw [mirrors_cons hm]
    cases res with
    | false =>
      have hno : ¬ Mirrors cmp l r := fun hc => Bool.noConfusion (hres.mpr hc)
      refine ⟨false, left', ?_, ⟨fun hf => Bool.noConfusion hf, fun hc => absurd hc.1 hno⟩,
        fun hf => Bool.noConfusion hf⟩
      simp [slistIsPalindrome, hload, hrun]
    | true =>
      have hseg := hleft rfl
      rw [hdrop] at hseg
      obtain ⟨rfl, next', hcur, hseg⟩ := hseg
      have hload' : h.mem.load (some l[r.length].1) = some ⟨l[r.length].2, next'⟩ := hcur
      refine ⟨if cmp l[r.length].2 n.2 ≠ 0 then false else true, next', ?_, ?_, fun _ => hseg⟩
      · simp [slistIsPalindrome, hload, hrun, hload']
      · by_cases hc : cmp l[r.length].2 n.2 = 0
        · simp [hc, hres.mp rfl]
        · simp [hc]

/-- **`slist_is_palindrome` is exact.**  On every chain that ends in NULL and with every callback,
called with `*left` and `right` at its head, it follows no null pointer, leaves the memory as it
is, and returns true exactly when the callback returns 0 on every node and the one that is as
far from the end as it is from the head. -/
theorem slistIsPalindrome_exact (cmp : D → D → Int) (h : Heap D) (head : Ptr) (l : List (Nat × D))
    (hl : Seg h.mem.cells head l none) : ∃ res left',
    slistIsPalindrome cmp h.rounds h head head = some (res, left', h) ∧
      (res = true ↔ ∀ (i : Nat) (_ : i < l.length), cmp l[i].2 l[l.length - 1 - i].2 = 0) := by
  obtain ⟨res, left', hrun, hres, -⟩ :=
    slistIsPalindrome_from cmp hl hl.length_lt hl (Nat.le_refl _)
  refine ⟨res, left', hrun, hres.trans ⟨fun hm i hi => ?_, fun hm i x y hi hx hy => ?_⟩⟩
  · exact hm i _ _ hi (List.getElem?_eq_getElem hi) (List.getElem?_eq_getElem (by omega))
  · rw [List.getElem?_eq_getElem hi, Option.some.injEq] at hx
    rw [List.getElem?_eq_getElem (by omega), Option.some.injEq] at hy
    rw [← hx, ← hy]
    exact hm i hi

/-- Three nodes that read the same from both ends. -/
def mirroredNodes : List (Nat × Int) := [(0, 1), (1, 2), (2, 1)]

theorem seg_mirroredNodes : Seg (heapOf [1, 2, 1]).mem.cells (some 0) mirroredNodes none :=
  ⟨rfl, some 1, rfl, rfl, some 2, rfl, rfl, none, rfl, rfl⟩

theorem slistIsPalindrome_exact_mirrored : ∃ res left',
    slistIsPalindrome (fun x y => x - y) (heapOf [1, 2, 1]).rounds (heapOf [1, 2, 1]) (some 0)
        (some 0) = some (res, left', heapOf [1, 2, 1]) ∧
      (res = true ↔ ∀ (i : Nat) (_ : i < mirroredNodes.length),
        mirroredNodes[i].2 - mirroredNodes[mirroredNodes.length - 1 - i].2 = 0) :=
  slistIsPalindrome_exact (fun x y => x - y) _ _ mirroredNodes seg_mirroredNodes

example : (slistIsPalindrome (fun x y : Int => x - y) 5 (heapOf [1, 2, 2]) (some 0) (some 0)).map
    (fun r => (r.1, r.2.1)) = some (false, some 1) := by decide

end DataStructures.Slist
