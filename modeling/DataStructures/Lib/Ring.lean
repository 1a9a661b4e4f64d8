import Mathlib.Data.List.Chain
import Mathlib.Data.List.Nodup
import Mathlib.Logic.Function.Basic
import Mathlib.Data.Set.Basic

/-!
# Rings of cells

A store maps every address to a cell, and a cell holds two addresses, `next`
and `prev`.  A **ring** at `head` is a list `xs` of addresses such that walking
`next` from `head` visits `xs` in order and comes back to `head`, walking
`prev` visits it in reverse, and no address is met twice.

All pointer surgery on a ring comes down to one write pair: `join m a b` makes
`b` the successor of `a` and `a` the predecessor of `b`.

* `chain_join`: two chains whose ends are joined are one chain.
* `Ring.unlink`: joining the neighbours of `n` takes `n` out.
* `Ring.link`: joining `a` to `n` and `n` to the successor of `a` puts `n`
  behind `a`.
* `Rings`: a family of pairwise disjoint rings, one for each index of a set.
  `Rings.unlink` and `Rings.link` say that surgery on one ring changes that
  ring as above and no other.
-/

namespace DataStructures.Lib

variable {α ι : Type}

/-- A cell of a doubly linked list. -/
structure Cell (α : Type) where
  next : α
  prev : α
deriving DecidableEq, Repr

/-- A store: the cell at every address. -/
abbrev Store (α : Type) := α → Cell α

section Writes

variable [DecidableEq α]

/-- Write the `next` field of the cell at `a`. -/
def setNext (m : Store α) (a v : α) : Store α :=
  fun x => if x = a then { m a with next := v } else m x

/-- Write the `prev` field of the cell at `a`. -/
def setPrev (m : Store α) (a v : α) : Store α :=
  fun x => if x = a then { m a with prev := v } else m x

@[simp] theorem setNext_next (m : Store α) (a v x : α) :
    (setNext m a v x).next = if x = a then v else (m x).next := by
  unfold setNext; split <;> rfl

@[simp] theorem setNext_prev (m : Store α) (a v x : α) :
    (setNext m a v x).prev = (m x).prev := by
  unfold setNext; split <;> simp_all

@[simp] theorem setPrev_next (m : Store α) (a v x : α) :
    (setPrev m a v x).next = (m x).next := by
  unfold setPrev; split <;> simp_all

@[simp] theorem setPrev_prev (m : Store α) (a v x : α) :
    (setPrev m a v x).prev = if x = a then v else (m x).prev := by
  unfold setPrev; split <;> rfl

theorem setNext_of_ne (m : Store α) {a v x : α} (h : x ≠ a) : setNext m a v x = m x := if_neg h

theorem setPrev_of_ne (m : Store α) {a v x : α} (h : x ≠ a) : setPrev m a v x = m x := if_neg h

omit [DecidableEq α] in
/-- Two stores with the same fields are the same store. -/
theorem store_ext {m m' : Store α} (hn : ∀ x, (m x).next = (m' x).next)
    (hp : ∀ x, (m x).prev = (m' x).prev) : m = m' := by
  funext x
  have h1 := hn x
  have h2 := hp x
  cases hm : m x
  cases hm' : m' x
  simp_all

/-- Make `b` the successor of `a` and `a` the predecessor of `b`. -/
def join (m : Store α) (a b : α) : Store α := setPrev (setNext m a b) b a

@[simp] theorem join_next (m : Store α) (a b x : α) :
    (join m a b x).next = if x = a then b else (m x).next := by simp [join]

@[simp] theorem join_prev (m : Store α) (a b x : α) :
    (join m a b x).prev = if x = b then a else (m x).prev := by simp [join]

theorem join_of_ne (m : Store α) {a b x : α} (ha : x ≠ a) (hb : x ≠ b) : join m a b x = m x := by
  rw [join, setPrev_of_ne _ hb, setNext_of_ne _ ha]

end Writes

/-! ### Chains -/

/-- `y` follows `x`, and both cells say so. -/
def Link (m : Store α) (x y : α) : Prop := (m x).next = y ∧ (m y).prev = x

/-- A chain reads `next` of everything but its last element and `prev` of
everything but its first. -/
theorem chain_congr {m m' : Store α} : ∀ {l : List α},
    (∀ x ∈ l.dropLast, (m' x).next = (m x).next) → (∀ y ∈ l.tail, (m' y).prev = (m y).prev) →
    l.IsChain (Link m) → l.IsChain (Link m') := by
  intro l
  induction l with
  | nil => intro _ _ _; exact List.isChain_nil
  | cons a r ih =>
    intro hn hp h
    cases r with
    | nil => exact List.isChain_singleton a
    | cons b t =>
      rw [List.isChain_cons_cons] at h ⊢
      refine ⟨⟨?_, ?_⟩, ih ?_ ?_ h.2⟩
      · rw [hn a (by simp)]; exact h.1.1
      · rw [hp b (by simp)]; exact h.1.2
      · intro x hx
        exact hn x (by simp only [List.dropLast_cons_cons, List.mem_cons]; exact Or.inr hx)
      · intro y hy
        exact hp y (List.mem_of_mem_tail hy)

variable [DecidableEq α]

/-- **Two chains whose ends are joined are one chain**, as long as the result
repeats no cell, its two ends apart. -/
theorem chain_join {m : Store α} {P Q : List α} {a b : α} (h1 : (P ++ [a]).IsChain (Link m))
    (h2 : (b :: Q).IsChain (Link m)) (hd : (P ++ a :: b :: Q).dropLast.Nodup)
    (ht : (P ++ a :: b :: Q).tail.Nodup) : (P ++ a :: b :: Q).IsChain (Link (join m a b)) := by
  have he : (P ++ a :: b :: Q).tail = (P ++ [a]).tail ++ b :: Q := by cases P <;> simp
  rw [List.dropLast_append_cons, List.dropLast_cons_cons, List.nodup_append] at hd
  rw [he, List.nodup_append] at ht
  rw [List.isChain_split, List.isChain_cons_cons]
  refine ⟨chain_congr ?_ ?_ h1, ⟨by simp, by simp⟩, chain_congr ?_ ?_ h2⟩
  · intro x hx
    rw [List.dropLast_concat] at hx
    rw [join_next, if_neg (hd.2.2 x hx a (by simp))]
  · intro y hy
    rw [join_prev, if_neg (ht.2.2 y hy b (by simp))]
  · intro x hx
    rw [join_next, if_neg]
    rintro rfl
    exact (List.nodup_cons.mp hd.2.1).1 hx
  · intro y hy
    rw [join_prev, if_neg]
    rintro rfl
    exact (List.nodup_cons.mp ht.2.1).1 hy

theorem chain_snoc {m : Store α} {P : List α} {a n : α} (h : (P ++ [a]).IsChain (Link m))
    (hn : (P ++ [a, n]).Nodup) : (P ++ [a, n]).IsChain (Link (join m a n)) :=
  chain_join h (List.isChain_singleton n) (hn.sublist (List.dropLast_sublist _))
    (hn.sublist (List.tail_sublist _))

/-! ### Rings -/

/-- `xs` is the ring at `head`. -/
structure Ring (m : Store α) (head : α) (xs : List α) : Prop where
  nodup : (head :: xs).Nodup
  chain : (head :: xs ++ [head]).IsChain (Link m)

namespace Ring

variable {m m' : Store α} {head : α} {xs l r : List α}

omit [DecidableEq α] in
/-- A ring reads only its own cells. -/
theorem congr (h : Ring m head xs) (he : ∀ x ∈ head :: xs, m' x = m x) : Ring m' head xs := by
  refine ⟨h.nodup, chain_congr ?_ ?_ h.chain⟩
  · intro x hx
    rw [List.dropLast_concat] at hx
    rw [he x hx]
  · intro y hy
    rw [List.cons_append, List.tail_cons, List.mem_append, List.mem_singleton] at hy
    rw [he y (by rcases hy with hy | rfl <;> simp [*])]

omit [DecidableEq α] in
theorem nil_iff : Ring m head [] ↔ (m head).next = head ∧ (m head).prev = head := by
  refine ⟨?_, ?_⟩
  · intro h
    have := h.chain
    simpa [Link] using this
  · intro h
    exact ⟨by simp, by simpa [Link] using h⟩

omit [DecidableEq α] in
theorem ne_head (h : Ring m head xs) {x : α} (hx : x ∈ xs) : x ≠ head := by
  rintro rfl
  exact (List.nodup_cons.mp h.nodup).1 hx

omit [DecidableEq α] in
/-- Two neighbours of a ring point at each other. -/
theorem link_of_split (h : Ring m head xs) {P Q : List α} {a b : α}
    (he : head :: xs ++ [head] = P ++ a :: b :: Q) : Link m a b := by
  have hc := h.chain
  rw [he, List.isChain_split, List.isChain_cons_cons] at hc
  exact hc.2.1

omit [DecidableEq α] in
theorem next_eq_head_iff (h : Ring m head xs) : (m head).next = head ↔ xs = [] := by
  cases xs with
  | nil => simp [(nil_iff.mp h).1]
  | cons x t =>
    have hl : Link m head x := h.link_of_split (P := []) (Q := t ++ [head]) (by simp)
    rw [hl.1]
    simp [h.ne_head (List.mem_cons_self)]

omit [DecidableEq α] in
/-- The neighbours of an element stand in front of it and behind it. -/
theorem around {n : α} (h : Ring m head (l ++ n :: r)) :
    ∃ P Q, head :: l = P ++ [(m n).prev] ∧ r ++ [head] = (m n).next :: Q := by
  obtain ⟨P, a, hP⟩ := List.eq_nil_or_concat (head :: l) |>.resolve_left (by simp)
  obtain ⟨b, Q, hQ⟩ := List.exists_cons_of_ne_nil (show r ++ [head] ≠ [] by simp)
  rw [List.concat_eq_append] at hP
  have he : head :: (l ++ n :: r) ++ [head] = P ++ a :: n :: b :: Q := by
    rw [← hQ, ← List.cons_append, hP]; simp
  have hnext : Link m n b := h.link_of_split (P := P ++ [a]) (Q := Q) (by rw [he]; simp)
  rw [(h.link_of_split he).2, hnext.1]
  exact ⟨P, Q, hP, hQ⟩

/-- **Joining the neighbours of `n` takes `n` out of the ring.** -/
theorem unlink {n : α} (h : Ring m head (l ++ n :: r)) :
    Ring (join m (m n).prev (m n).next) head (l ++ r) := by
  obtain ⟨P, Q, hP, hQ⟩ := h.around
  generalize (m n).prev = a at hP ⊢
  generalize (m n).next = b at hQ ⊢
  have he : head :: (l ++ n :: r) ++ [head] = P ++ a :: n :: b :: Q := by
    rw [← hQ, ← List.cons_append, hP]; simp
  have he' : head :: (l ++ r) ++ [head] = P ++ a :: b :: Q := by
    rw [← hQ, ← List.cons_append, hP]; simp
  have hn : (head :: (l ++ r)).Nodup :=
    h.nodup.sublist (List.Sublist.cons_cons _ ((List.sublist_cons_self n r).append_left l))
  have hc := h.chain
  rw [he, List.isChain_split, List.isChain_cons_cons, List.isChain_cons_cons] at hc
  refine ⟨hn, ?_⟩
  rw [he']
  refine chain_join hc.1 hc.2.2.2 ?_ ?_
  · rw [← he', List.dropLast_concat]; exact hn
  · rw [← he', List.cons_append, List.tail_cons, List.nodup_append_comm]; exact hn

/-- **Joining `a` to `n` and `n` to the successor of `a` puts `n` behind `a`.** -/
theorem link {P : List α} {a n : α} (h : Ring m head (l ++ r)) (hP : head :: l = P ++ [a])
    (hn : n ∉ head :: (l ++ r)) :
    Ring (join (join m a n) n (m a).next) head (l ++ n :: r) := by
  obtain ⟨b, Q, hQ⟩ := List.exists_cons_of_ne_nil (show r ++ [head] ≠ [] by simp)
  have he : head :: (l ++ r) ++ [head] = P ++ a :: b :: Q := by
    rw [← hQ, ← List.cons_append, hP]; simp
  have he' : head :: (l ++ n :: r) ++ [head] = (P ++ [a]) ++ n :: b :: Q := by
    rw [← hQ, ← List.cons_append, ← List.cons_append, hP]; simp
  have hnd : (head :: (l ++ n :: r)).Nodup := by
    rw [← List.cons_append, List.nodup_middle]
    exact List.nodup_cons.mpr ⟨hn, h.nodup⟩
  have hc := h.chain
  rw [he, List.isChain_split, List.isChain_cons_cons] at hc
  rw [hc.2.1.1]
  refine ⟨hnd, ?_⟩
  rw [he']
  have hna : n ∉ P ++ a :: b :: Q := by
    rw [← he, List.mem_append, List.mem_singleton]
    rintro (hx | rfl)
    · exact hn hx
    · exact hn List.mem_cons_self
  have hd : (head :: (l ++ r)).Nodup := h.nodup
  have hd' : (P ++ a :: (b :: Q).dropLast).Nodup := by
    have := congrArg List.dropLast he
    rw [List.dropLast_concat, List.dropLast_append_cons, List.dropLast_cons_cons] at this
    rw [← this]; exact hd
  have hPn : (P ++ [a, n]).Nodup := by
    refine List.Nodup.sublist ?_ (show ((P ++ [a]) ++ n :: (b :: Q).dropLast).Nodup from ?_)
    · rw [List.append_assoc]
      exact ((((List.nil_sublist _).cons_cons n).cons_cons a).append_left P)
    · rw [List.nodup_middle, List.append_assoc, List.nodup_cons]
      refine ⟨fun hx => hna ?_, by simpa using hd'⟩
      have hs : List.Sublist (P ++ ([a] ++ (b :: Q).dropLast)) (P ++ a :: b :: Q) :=
        ((List.dropLast_sublist _).cons_cons a).append_left P
      exact hs.subset hx
  have h1 : ((P ++ [a]) ++ [n]).IsChain (Link (join m a n)) := by
    rw [List.append_assoc]
    exact chain_snoc hc.1 hPn
  have h2 : (b :: Q).IsChain (Link (join m a n)) := by
    refine chain_congr ?_ ?_ hc.2.2
    · intro x hx
      rw [join_next, if_neg]
      rintro rfl
      exact (List.nodup_cons.mp (List.nodup_append.mp hd').2.1).1 hx
    · intro y hy
      rw [join_prev, if_neg]
      rintro rfl
      rw [List.tail_cons] at hy
      exact hna (by simp [hy])
  refine chain_join h1 h2 ?_ ?_
  · rw [← he', List.dropLast_concat]; exact hnd
  · rw [← he', List.cons_append, List.tail_cons, List.nodup_append_comm]; exact hnd

omit [DecidableEq α] in
/-- The neighbours of an element are cells of the same ring. -/
theorem neighbours_mem {n : α} (h : Ring m head (l ++ n :: r)) :
    (m n).prev ∈ head :: (l ++ n :: r) ∧ (m n).next ∈ head :: (l ++ n :: r) := by
  obtain ⟨P, Q, hP, hQ⟩ := h.around
  have ha : (m n).prev ∈ head :: l := by rw [hP]; simp
  have hb : (m n).next ∈ r ++ [head] := by rw [hQ]; simp
  simp only [List.mem_cons, List.mem_append, List.not_mem_nil, or_false] at ha hb ⊢
  tauto

omit [DecidableEq α] in
/-- Every cell of a ring is the predecessor of its successor, and the successor of
its predecessor. -/
theorem next_prev {x : α} (h : Ring m head xs) (hx : x ∈ head :: xs) :
    (m (m x).next).prev = x ∧ (m (m x).prev).next = x := by
  constructor
  · obtain ⟨P, Q, hPQ⟩ := List.append_of_mem hx
    obtain ⟨b, R, hR⟩ := List.exists_cons_of_ne_nil (show Q ++ [head] ≠ [] by simp)
    have hl : Link m x b := h.link_of_split (P := P) (Q := R) (by rw [hPQ, ← hR]; simp)
    rw [hl.1, hl.2]
  · have hx' : x ∈ xs ++ [head] := by
      simp only [List.mem_cons, List.mem_append, List.not_mem_nil, or_false] at hx ⊢
      exact hx.symm
    obtain ⟨P, Q, hPQ⟩ := List.append_of_mem hx'
    obtain ⟨R, a, hR⟩ := List.eq_nil_or_concat (head :: P) |>.resolve_left (by simp)
    rw [List.concat_eq_append] at hR
    have hl : Link m a x := h.link_of_split (P := R) (Q := Q) (by
      rw [List.cons_append, hPQ, ← List.cons_append, hR]; simp)
    rw [hl.2, hl.1]

omit [DecidableEq α] in
/-- **The ring read backwards.** -/
theorem reverse (h : Ring m head xs) : Ring (fun x => ⟨(m x).prev, (m x).next⟩) head xs.reverse := by
  refine ⟨?_, ?_⟩
  · rw [List.nodup_cons, List.mem_reverse, List.nodup_reverse]
    exact List.nodup_cons.mp h.nodup
  · have he : head :: xs.reverse ++ [head] = (head :: xs ++ [head]).reverse := by simp
    rw [he, List.isChain_reverse]
    exact h.chain.imp (fun _ _ hl => hl.symm)

omit [DecidableEq α] in
theorem head_neighbours_mem (h : Ring m head xs) :
    (m head).prev ∈ head :: xs ∧ (m head).next ∈ head :: xs := by
  obtain ⟨P, a, hP⟩ := List.eq_nil_or_concat (head :: xs) |>.resolve_left (by simp)
  obtain ⟨b, Q, hQ⟩ := List.exists_cons_of_ne_nil (show xs ++ [head] ≠ [] by simp)
  rw [List.concat_eq_append] at hP
  rw [(h.link_of_split (P := P) (a := a) (Q := []) (by rw [hP]; simp)).2,
    (h.link_of_split (P := []) (b := b) (Q := Q) (by rw [List.cons_append, hQ]; rfl)).1]
  have ha : a ∈ head :: xs := by rw [hP]; simp
  have hb : b ∈ xs ++ [head] := by rw [hQ]; simp
  simp only [List.mem_append, List.mem_singleton] at hb
  exact ⟨ha, List.mem_cons.mpr hb.symm⟩

end Ring

/-! ### Families of rings -/

/-- One ring for every index of `I`, no two of them sharing a cell. -/
structure Rings (m : Store α) (I : Set ι) (head : ι → α) (lists : ι → List α) : Prop where
  ring : ∀ i ∈ I, Ring m (head i) (lists i)
  disjoint : ∀ i ∈ I, ∀ j ∈ I, i ≠ j → (head i :: lists i).Disjoint (head j :: lists j)

variable [DecidableEq ι] {m m' : Store α} {I : Set ι} {head : ι → α} {lists : ι → List α} {i : ι}

omit [DecidableEq α] in
/-- Lists with their heads stay disjoint where one of them changes, or a new one is added. -/
theorem disjoint_update {xs : List α}
    (h : ∀ j ∈ I, ∀ k ∈ I, j ≠ k → (head j :: lists j).Disjoint (head k :: lists k))
    (hout : ∀ j ∈ I, j ≠ i → (head j :: lists j).Disjoint (head i :: xs)) :
    ∀ j ∈ insert i I, ∀ k ∈ insert i I, j ≠ k →
      (head j :: Function.update lists i xs j).Disjoint (head k :: Function.update lists i xs k) := by
  intro j hj k hk hjk
  by_cases hji : j = i
  · subst hji
    rw [Function.update_self, Function.update_of_ne hjk.symm]
    exact fun x hx hx' => hout k (hk.resolve_left hjk.symm) hjk.symm hx' hx
  · rw [Function.update_of_ne hji]
    by_cases hki : k = i
    · subst hki
      rw [Function.update_self]
      exact hout j (hj.resolve_left hji) hji
    · rw [Function.update_of_ne hki]
      exact h j (hj.resolve_left hji) k (hk.resolve_left hki) hjk

namespace Rings

omit [DecidableEq α] in
/-- Changing ring `i` and nothing the other rings read. -/
theorem update {xs : List α} (h : Rings m I head lists) (hr : Ring m' (head i) xs)
    (hout : ∀ j ∈ I, j ≠ i → ∀ x ∈ head j :: lists j, m' x = m x ∧ x ∉ head i :: xs) :
    Rings m' I head (Function.update lists i xs) := by
  refine ⟨?_, ?_⟩
  · intro j hj
    by_cases he : j = i
    · subst he
      rw [Function.update_self]; exact hr
    · rw [Function.update_of_ne he]
      exact (h.ring j hj).congr (fun x hx => (hout j hj he x hx).1)
  · intro j hj k hk
    exact disjoint_update h.disjoint (fun j hj hji x hx => (hout j hj hji x hx).2) j (Or.inr hj) k
      (Or.inr hk)

omit [DecidableEq α] [DecidableEq ι] in
theorem congr (h : Rings m I head lists) (he : ∀ i ∈ I, ∀ x ∈ head i :: lists i, m' x = m x) :
    Rings m' I head lists :=
  ⟨fun i hi => (h.ring i hi).congr (he i hi), h.disjoint⟩

omit [DecidableEq α] [DecidableEq ι] in
/-- Only the lists at indices of `I` matter. -/
theorem of_eq {lists' : ι → List α} (h : Rings m I head lists) (he : ∀ i ∈ I, lists' i = lists i) :
    Rings m I head lists' :=
  ⟨fun i hi => he i hi ▸ h.ring i hi, fun i hi j hj => he i hi ▸ he j hj ▸ h.disjoint i hi j hj⟩

/-- **Taking `n` out of ring `i` changes no other ring.** -/
theorem unlink {n : α} {l r : List α} (h : Rings m I head lists) (hi : i ∈ I)
    (hl : lists i = l ++ n :: r) :
    Rings (join m (m n).prev (m n).next) I head (Function.update lists i (l ++ r)) := by
  have hr : Ring m (head i) (l ++ n :: r) := hl ▸ h.ring i hi
  refine h.update hr.unlink (fun j hj hji x hx => ?_)
  have hx' : x ∉ head i :: (l ++ n :: r) := by
    rw [← hl]
    exact fun hc => h.disjoint j hj i hi hji hx hc
  refine ⟨join_of_ne m ?_ ?_, fun hc => hx' ?_⟩
  · rintro rfl; exact hx' hr.neighbours_mem.1
  · rintro rfl; exact hx' hr.neighbours_mem.2
  · exact ((List.sublist_cons_self n r).append_left l |>.cons_cons (head i)).subset hc

/-- **Putting a new cell `n` behind `a` in ring `i` changes no other ring.** -/
theorem link {n a : α} {P l r : List α} (h : Rings m I head lists) (hi : i ∈ I)
    (hl : lists i = l ++ r) (hP : head i :: l = P ++ [a])
    (hn : ∀ j ∈ I, n ∉ head j :: lists j) :
    Rings (join (join m a n) n (m a).next) I head (Function.update lists i (l ++ n :: r)) := by
  have hr : Ring m (head i) (l ++ r) := hl ▸ h.ring i hi
  refine h.update (hr.link hP (hl ▸ hn i hi)) (fun j hj hji x hx => ?_)
  have hx' : x ∉ head i :: (l ++ r) := by
    rw [← hl]
    exact fun hc => h.disjoint j hj i hi hji hx hc
  have hxn : x ≠ n := by
    rintro rfl; exact hn j hj hx
  have ha : a ∈ head i :: (l ++ r) := by rw [← List.cons_append, hP]; simp
  have hb : (m a).next ∈ head i :: (l ++ r) := by
    rcases List.mem_cons.mp ha with rfl | ha
    · exact hr.head_neighbours_mem.2
    · obtain ⟨u, v, huv⟩ := List.append_of_mem ha
      rw [huv] at hr ⊢
      exact hr.neighbours_mem.2
  constructor
  · rw [join_of_ne _ hxn, join_of_ne _ _ hxn]
    · rintro rfl; exact hx' ha
    · rintro rfl; exact hx' hb
  · simp only [List.mem_cons, List.mem_append] at hx' ⊢
    tauto

end Rings

end DataStructures.Lib
