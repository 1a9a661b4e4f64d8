import DataStructures.Tree.Radix.Nodes
import Mathlib.Data.Finset.Card
import Mathlib.Data.List.Lex
import Mathlib.Data.List.Perm.Basic

/-!
# Dumping and destroying a radix tree

`radix_tree_dump` prints every node below the root, a parent before its children
and the children by their byte; a line is indented by the length of the key above
it.  `entries` lists the nodes in that order, each with its whole key, and
`readBack` finds the keys again from the lines alone: `readBack_outline`.

Hence `radixTree_dump`: **a dump lists what the map holds, each key once, in the
order of `strcmp`**, and `radixTree_dump_determines`: the text that is printed
determines the map, as long as the padding is not used up, and the prefixes have no
blank in front and no parenthesis or line end inside.  (A key may have them: `a(1)`,
a line end and `b`, stored with `2`, prints as `a` stored with `1` and `b` with `2`.)
`radixTree_dump_length` bounds the number of nodes by the number of keys, before any
removal.
-/

namespace DataStructures.Radix

open Lib Outcomes RadixTreeNode

variable {V : Type}

/-! ### The code -/

/-- What one line of the dump is given: the precision of `%.*s`, the prefix and
the data. -/
structure DumpLine (V : Type) where
  level : Nat
  pfx : List Byte
  data : Option V
deriving DecidableEq

/-- The number of blanks in `PADDING`. -/
def padding : Nat := 45

/-- `' '`, `'('`, `')'` and `'\n'`. -/
def blank : UInt8 := 0x20

def openParen : UInt8 := 0x28

def closeParen : UInt8 := 0x29

def newline : UInt8 := 0x0A

/-- What is printed for a line, where `_print` prints `print d` for the data `d`. -/
def DumpLine.text (print : Option V → List UInt8) (l : DumpLine V) : List UInt8 :=
  List.replicate (min l.level padding) blank ++ l.pfx.map Subtype.val ++ openParen ::
    (print l.data ++ [closeParen, newline])

/-- What is printed for the whole dump. -/
def dumpText (print : Option V → List UInt8) (lines : List (DumpLine V)) : List UInt8 :=
  lines.flatMap (DumpLine.text print)

/-- The prefix does not begin with a blank, and has no opening parenthesis and no line end. -/
def DumpLine.Plain (l : DumpLine V) : Prop :=
  (∀ c ∈ l.pfx.head?, c.val ≠ blank) ∧ ∀ c ∈ l.pfx, c.val ≠ openParen ∧ c.val ≠ newline

instance (l : DumpLine V) : Decidable l.Plain := inferInstanceAs (Decidable (_ ∧ _))

/-- `__radix_tree_dump`. -/
def radixTreeDumpHelper : RadixTreeNode V → Nat → Option (List (DumpLine V))
  | .null, _ => some []
  | .node none _ _, _ => none -- `strlen(NULL)`
  | .node (some p) d ch, level =>
      match indices.mapM (fun i => radixTreeDumpHelper (ch i) (level + p.length)) with
      | none => none
      | some lines => some (⟨level, p, d⟩ :: lines.flatten)

/-- `radix_tree_dump`. -/
def radixTreeDump : RadixTree V → Option (List (DumpLine V))
  | .null => some []
  | .node _ _ ch => (indices.mapM (fun i => radixTreeDumpHelper (ch i) 0)).map List.flatten

/-- `__radix_tree_destroy`, from the root in `radix_tree_destroy`: what `_free` is
given. -/
def radixTreeDestroy : RadixTreeNode V → List (Option V)
  | .null => []
  | .node _ d ch => indices.flatMap (fun i => radixTreeDestroy (ch i)) ++ [d]

/-! ### The nodes and their keys -/

/-- The nodes of `t` in the order of the dump, below the key `key`. -/
def entries (key : List Byte) : RadixTreeNode V → List (List Byte × Option V)
  | .null => []
  | .node p d ch =>
      (key ++ p.getD [], d) :: indices.flatMap (fun i => entries (key ++ p.getD []) (ch i))

/-- The lines of `t` from the level `level` on. -/
def outline (level : Nat) : RadixTreeNode V → List (DumpLine V)
  | .null => []
  | .node p d ch =>
      ⟨level, p.getD [], d⟩ :: indices.flatMap (fun i => outline (level + (p.getD []).length) (ch i))

/-- **Reading a dump**: a line stands for the key that agrees with the one of the
line above up to its level, and goes on with its prefix. -/
def readBack (key : List Byte) : List (DumpLine V) → List (List Byte × Option V)
  | [] => []
  | l :: ls => (key.take l.level ++ l.pfx, l.data) :: readBack (key.take l.level ++ l.pfx) ls

/-- The order of `strcmp`. -/
def Before (k k' : List Byte) : Prop := List.Lex (fun a b => a.val < b.val) k k'

/-! ### The dump is the outline -/

theorem mapM_eq_some {α β : Type} {f : α → Option β} {g : α → β} : ∀ {l : List α},
    (∀ a ∈ l, f a = some (g a)) → l.mapM f = some (l.map g) := by
  intro l h
  induction l with
  | nil => rfl
  | cons a l ih =>
    rw [List.mapM_cons, h a (List.mem_cons_self ..), ih (fun b hb => h b (List.mem_cons_of_mem _ hb))]
    rfl

/-- A child is null, or has a prefix. -/
theorem Fits.pfx_isSome {b : UInt8} {t : RadixTreeNode V} (h : Fits b t) (hne : t ≠ null) :
    t.pfx.isSome := by
  rcases h with hn | ⟨c, q, hp, _⟩
  · exact absurd hn hne
  · rw [hp]; rfl

theorem radixTreeDumpHelper_eq : ∀ {t : RadixTreeNode V} (level : Nat), Good t →
    (t ≠ null → t.pfx.isSome) → radixTreeDumpHelper t level = some (outline level t) := by
  intro t
  induction t with
  | null => exact fun _ _ _ => rfl
  | node p d ch ih =>
    intro level hg hp
    cases p with
    | none => exact absurd (hp nofun) (by simp)
    | some p =>
      rw [radixTreeDumpHelper, mapM_eq_some (g := fun i => outline (level + p.length) (ch i))
        (fun i _ => ih i _ (hg i).2 (hg i).1.pfx_isSome)]
      rfl

theorem radixTreeDump_eq {p : Option (List Byte)} {d : Option V} {ch : UInt8 → RadixTreeNode V}
    (hg : Good (node p d ch)) :
    radixTreeDump (node p d ch) = some (indices.flatMap (fun i => outline 0 (ch i))) := by
  rw [radixTreeDump, mapM_eq_some (g := fun i => outline 0 (ch i))
    (fun i _ => radixTreeDumpHelper_eq 0 (hg i).2 (hg i).1.pfx_isSome)]
  rfl

/-! ### Reading it back -/

/-- **The lines of several nodes are read back one after another.** -/
theorem readBack_flatMap {key : List Byte} {ch : UInt8 → RadixTreeNode V}
    (h : ∀ i prev rest, key <+: prev → ∃ last, key <+: last ∧
      readBack prev (outline key.length (ch i) ++ rest) = entries key (ch i) ++ readBack last rest) :
    ∀ (is : List UInt8) (prev : List Byte) (rest : List (DumpLine V)), key <+: prev →
      ∃ last, key <+: last ∧
        readBack prev (is.flatMap (fun i => outline key.length (ch i)) ++ rest) =
          is.flatMap (fun i => entries key (ch i)) ++ readBack last rest := by
  intro is
  induction is with
  | nil => exact fun prev rest hp => ⟨prev, hp, rfl⟩
  | cons i is ih =>
    intro prev rest hp
    obtain ⟨mid, hm, he⟩ := h i prev (is.flatMap (fun i => outline key.length (ch i)) ++ rest) hp
    obtain ⟨last, hl, he'⟩ := ih mid rest hm
    refine ⟨last, hl, ?_⟩
    rw [List.flatMap_cons, List.append_assoc, he, he', List.flatMap_cons, List.append_assoc]

/-- **The lines give the nodes and their keys back.**  By induction on the tree:
below a node every key goes on from the node's. -/
theorem readBack_outline : ∀ (t : RadixTreeNode V) (key prev : List Byte) (rest : List (DumpLine V)),
    key <+: prev → ∃ last, key <+: last ∧
      readBack prev (outline key.length t ++ rest) = entries key t ++ readBack last rest := by
  intro t
  induction t with
  | null => exact fun key prev rest hp => ⟨prev, hp, rfl⟩
  | node p d ch ih =>
    intro key prev rest hp
    obtain ⟨last, hl, he⟩ := readBack_flatMap (fun i => ih i (key ++ p.getD [])) indices
      (key ++ p.getD []) rest List.prefix_rfl
    refine ⟨last, (List.prefix_append _ _).trans hl, ?_⟩
    rw [List.length_append] at he
    rw [outline, entries, List.cons_append, readBack, (List.prefix_iff_eq_take.mp hp).symm, he]
    rfl

/-! ### What the entries are -/

theorem prefix_of_mem_entries : ∀ {t : RadixTreeNode V} {key : List Byte} {x : List Byte × Option V},
    x ∈ entries key t → key ++ t.pfx.getD [] <+: x.1 := by
  intro t
  induction t with
  | null => intro key x h; exact absurd h List.not_mem_nil
  | node p d ch ih =>
    intro key x h
    rcases List.mem_cons.mp h with rfl | h
    · exact List.prefix_rfl
    · obtain ⟨i, _, hi⟩ := List.mem_flatMap.mp h
      exact (List.prefix_append _ _).trans (ih i hi)

/-- **Below a node** a key goes on with the byte of the child. -/
theorem Good.mem_child {p : Option (List Byte)} {d : Option V} {ch : UInt8 → RadixTreeNode V}
    (hg : Good (node p d ch)) {i : UInt8} {key : List Byte} {x : List Byte × Option V}
    (h : x ∈ entries key (ch i)) : ∃ (c : Byte) (s : List Byte), c.val = i ∧ x.1 = key ++ c :: s := by
  have hne : ch i ≠ null := by
    intro h0
    rw [h0] at h
    exact absurd h List.not_mem_nil
  obtain ⟨c, q, d', ch', rfl, hch⟩ := hg.child_of_ne hne
  obtain ⟨s, hs⟩ := prefix_of_mem_entries h
  refine ⟨c, q ++ s, rfl, ?_⟩
  rw [← hs, hch, pfx_node, Option.getD_some, List.append_assoc, List.cons_append]

/-- **The entries with data are what is stored.** -/
theorem mem_entries_iff : ∀ {t : RadixTreeNode V} {key k : List Byte} {v : V}, Good t →
    ((k, some v) ∈ entries key t ↔ ∃ s, k = key ++ t.pfx.getD [] ++ s ∧ find t s = some v) := by
  intro t
  induction t with
  | null =>
    intro key k v _
    refine ⟨fun h => absurd h List.not_mem_nil, ?_⟩
    rintro ⟨s, _, h⟩
    exact absurd h (by cases s <;> simp [find])
  | node p d ch ih =>
    intro key k v hg
    rw [entries, List.mem_cons, List.mem_flatMap, Prod.mk.injEq]
    refine ⟨?_, ?_⟩
    · rintro (⟨rfl, hd⟩ | ⟨i, _, hi⟩)
      · exact ⟨[], (List.append_nil _).symm, hd.symm⟩
      · obtain ⟨s, rfl, hs⟩ := (ih i (hg i).2).mp hi
        have hne : ch i ≠ null := by
          intro h0
          rw [h0] at hs
          exact absurd hs (by cases s <;> simp [find])
        obtain ⟨c, q, d', ch', rfl, hch⟩ := hg.child_of_ne hne
        refine ⟨c :: (q ++ s), ?_, (find_append hch s).trans hs⟩
        rw [hch, pfx_node, pfx_node, Option.getD_some, List.append_assoc, List.cons_append]
    · rintro ⟨s, rfl, hs⟩
      cases s with
      | nil => exact Or.inl ⟨List.append_nil _, hs.symm⟩
      | cons c r =>
        rw [find_cons, children_node, under, Option.bind_eq_some_iff] at hs
        obtain ⟨s', hs', hf⟩ := hs
        obtain ⟨q, hq, hd⟩ := Option.bind_eq_some_iff.mp hs'
        refine Or.inr ⟨c.val, mem_indices _, (ih c.val (hg c.val).2).mpr ⟨s', ?_, hf⟩⟩
        rw [hq, Option.getD_some, dropPrefix?_eq_some.mp hd, pfx_node, List.append_assoc _ q]

/-! ### Their order -/

theorem sorted_indices : indices.Pairwise (· < ·) := by
  refine List.pairwise_map.mpr (List.pairwise_lt_range.imp_of_mem (fun {x y} hx hy hlt => ?_))
  rw [UInt8.lt_iff_toNat_lt, UInt8.toNat_ofNat_of_lt' (List.mem_range.mp hx),
    UInt8.toNat_ofNat_of_lt' (List.mem_range.mp hy)]
  exact hlt

theorem before_append (k : List Byte) (c : Byte) (s : List Byte) : Before k (k ++ c :: s) := by
  have h := List.Lex.append_left (fun a b : Byte => a.val < b.val) (List.Lex.nil (a := c) (l := s)) k
  rwa [List.append_nil] at h

theorem before_of_lt (k : List Byte) {c c' : Byte} (s s' : List Byte) (h : c.val < c'.val) :
    Before (k ++ c :: s) (k ++ c' :: s') := by
  have h' : List.Lex (fun a b : Byte => a.val < b.val) (c :: s) (c' :: s') := List.Lex.rel h
  exact List.Lex.append_left _ h' k

theorem Before.ne {k k' : List Byte} (h : Before k k') : k ≠ k' := by
  induction h with
  | nil => exact nofun
  | cons _ ih => exact fun he => ih (List.cons.inj he).2
  | rel hlt => exact fun he => absurd (congrArg Subtype.val (List.cons.inj he).1) (UInt8.ne_of_lt hlt)

/-- **The dump goes through the keys in order.** -/
theorem entries_sorted : ∀ {t : RadixTreeNode V} (key : List Byte), Good t →
    (entries key t).Pairwise (fun x y => Before x.1 y.1) := by
  intro t
  induction t with
  | null => exact fun _ _ => List.Pairwise.nil
  | node p d ch ih =>
    intro key hg
    refine List.pairwise_cons.mpr ⟨fun x hx => ?_, List.pairwise_flatMap.mpr ⟨fun i _ => ?_, ?_⟩⟩
    · obtain ⟨i, _, hi⟩ := List.mem_flatMap.mp hx
      obtain ⟨c, s, _, he⟩ := hg.mem_child hi
      rw [he]
      exact before_append _ c s
    · exact ih i _ (hg i).2
    · refine sorted_indices.imp (fun {i j} hij x hx y hy => ?_)
      obtain ⟨c, s, rfl, he⟩ := hg.mem_child hx
      obtain ⟨c', s', rfl, he'⟩ := hg.mem_child hy
      rw [he, he']
      exact before_of_lt _ s s' hij

/-! ### What `_free` is given -/

/-- **Every node is destroyed once.** -/
theorem destroy_perm : ∀ (t : RadixTreeNode V) (key : List Byte),
    (radixTreeDestroy t).Perm ((entries key t).map Prod.snd) := by
  intro t
  induction t with
  | null => exact fun _ => List.Perm.nil
  | node p d ch ih =>
    intro key
    rw [radixTreeDestroy, entries, List.map_cons, List.map_flatMap]
    exact (List.perm_append_singleton _ _).trans
      ((List.Perm.flatMap_left _ (fun i _ => ih i _)).cons d)

/-! ### How many nodes there are -/

/-- How many of the nodes have data. -/
def dataCount (l : List (List Byte × Option V)) : Nat := l.countP (fun x => x.2.isSome)

theorem dataCount_append (l l' : List (List Byte × Option V)) :
    dataCount (l ++ l') = dataCount l + dataCount l' := List.countP_append

/-- **Several nodes**, each with fewer than twice its data. -/
theorem entries_flatMap_length {key : List Byte} {ch : UInt8 → RadixTreeNode V}
    (h : ∀ i, ch i ≠ null → (entries key (ch i)).length + 1 ≤ 2 * dataCount (entries key (ch i))) :
    ∀ is : List UInt8, (is.flatMap (fun i => entries key (ch i))).length +
        is.countP (fun i => !(ch i).isNull) ≤ 2 * dataCount (is.flatMap (fun i => entries key (ch i))) := by
  intro is
  induction is with
  | nil => exact Nat.le_refl 0
  | cons i is ih =>
    rw [List.flatMap_cons, List.length_append, dataCount_append, List.countP_cons]
    by_cases hi : ch i = null
    · rw [if_neg (by rw [not_isNull_iff]; exact not_not.mpr hi), hi, entries, dataCount, List.countP_nil,
        List.length_nil]
      omega
    · have := h i hi
      rw [if_pos (not_isNull_iff.mpr hi)]
      omega

/-- **Kept nodes are fewer than twice their data.**  By induction on the tree: a
node without data makes up for itself by its second child. -/
theorem entries_length : ∀ {t : RadixTreeNode V} (key : List Byte), t ≠ null → Kept t → Below Kept t →
    (entries key t).length + 1 ≤ 2 * dataCount (entries key t) := by
  intro t
  induction t with
  | null => exact fun _ hne => absurd rfl hne
  | node p d ch ih =>
    intro key _ hk hb
    have hch := entries_flatMap_length (fun i hi => ih i (key ++ p.getD []) hi ((hb i).1 hi) (hb i).2) indices
    have hc : nodeChildren (node p d ch) = indices.countP (fun i => !(ch i).isNull) := rfl
    rw [entries, List.length_cons, dataCount, List.countP_cons]
    rw [dataCount] at hch
    rcases hk with hd | hc'
    · rw [data_node] at hd
      rw [if_pos hd]
      omega
    · rw [hc] at hc'
      split <;> omega

/-! ### Every run -/

theorem Run.nil {ok : RadixTree V → List Byte → Prop} {t : RadixTree V} {m : List Byte → Option V}
    (h : Run ok t m) : m [] = none := by
  induction h with
  | init _ => rfl
  | insert _ hk _ ih =>
    split
    · exact ih
    · rw [Function.update_of_ne hk.symm, ih]
  | remove _ hk _ _ ih => rw [Function.update_of_ne hk.symm, ih]

theorem length_readBack : ∀ (ls : List (DumpLine V)) (key : List Byte),
    (readBack key ls).length = ls.length := by
  intro ls
  induction ls with
  | nil => exact fun _ => rfl
  | cons l ls ih => intro key; rw [readBack, List.length_cons, ih, List.length_cons]

theorem map_readBack : ∀ (ls : List (DumpLine V)) (key : List Byte),
    (readBack key ls).map Prod.snd = ls.map DumpLine.data := by
  intro ls
  induction ls with
  | nil => exact fun _ => rfl
  | cons l ls ih => intro key; rw [readBack, List.map_cons, ih, List.map_cons]

/-- **The dump of a root** gives the nodes below it. -/
theorem IsRoot.dump {t : RadixTree V} (hr : IsRoot t) : ∃ lines, radixTreeDump t = some lines ∧
    entries [] t = ([], t.data) :: readBack [] lines := by
  obtain ⟨hne, hp, hg⟩ := hr
  cases t with
  | null => exact absurd rfl hne
  | node p d ch =>
    rw [pfx_node] at hp
    obtain ⟨last, _, he⟩ := readBack_flatMap (fun i => readBack_outline (ch i) []) indices [] []
      List.prefix_rfl
    rw [List.append_nil, readBack, List.append_nil] at he
    refine ⟨_, radixTreeDump_eq hg, ?_⟩
    rw [entries, hp]
    exact congrArg _ he.symm

/-- **A dump of a run's tree**, read back. -/
theorem Run.dump {ok : RadixTree V → List Byte → Prop} {t : RadixTree V} {m : List Byte → Option V}
    (h : Run ok t m) : ∃ lines, radixTreeDump t = some lines ∧
      entries [] t = ([], none) :: readBack [] lines ∧
      (readBack [] lines).Pairwise (fun x y => Before x.1 y.1) ∧
      ∀ k v, (k, some v) ∈ readBack [] lines ↔ m k = some v := by
  obtain ⟨hr, hm⟩ := h.inv
  obtain ⟨lines, hl, he⟩ := hr.dump
  have hd : t.data = none := by rw [← find_nil, hm, h.nil]
  rw [hd] at he
  refine ⟨lines, hl, he, ?_, fun k v => ?_⟩
  · have hs := entries_sorted [] hr.good
    rw [he] at hs
    exact (List.pairwise_cons.mp hs).2
  · have hmem := @mem_entries_iff V t [] k v hr.good
    rw [he, hr.pfx, List.mem_cons, Prod.mk.injEq] at hmem
    rw [← hm]
    refine ⟨fun hk => ?_, fun hk => ?_⟩
    · obtain ⟨s, rfl, hs⟩ := hmem.mp (Or.inr hk)
      exact hs
    · rcases hmem.mpr ⟨k, rfl, hk⟩ with ⟨_, hn⟩ | hk
      · exact absurd hn (by simp)
      · exact hk

/-- **The dump lists the map.**  After any run the lines give, in the order of
`strcmp`, each key that is stored with its data, once; and destroying the tree
gives `_free` the data of each of these lines, and the `NULL` of the root. -/
theorem radixTree_dump (t : RadixTree V) (m : List Byte → Option V)
    (h : Run (fun _ _ => True) t m) : ∃ lines, radixTreeDump t = some lines ∧
      (readBack [] lines).Pairwise (fun x y => Before x.1 y.1) ∧
      (∀ k v, (k, some v) ∈ readBack [] lines ↔ m k = some v) ∧
      (radixTreeDestroy t).Perm (none :: lines.map DumpLine.data) := by
  obtain ⟨lines, hl, he, hs, hm⟩ := h.dump
  refine ⟨lines, hl, hs, hm, ?_⟩
  have hp := destroy_perm t []
  rwa [he, List.map_cons, map_readBack] at hp

theorem radixTree_dump_forkTree : ∃ lines, radixTreeDump forkTree = some lines ∧
      (readBack [] lines).Pairwise (fun x y => Before x.1 y.1) ∧
      (∀ k v, (k, some v) ∈ readBack [] lines ↔ record forkCalls (fun _ => none) k = some v) ∧
      (radixTreeDestroy forkTree).Perm (none :: lines.map DumpLine.data) :=
  radixTree_dump forkTree _ (forkTree_run _)

/-! ### The text -/

/-- A line without its line end. -/
def DumpLine.body (print : Option V → List UInt8) (l : DumpLine V) : List UInt8 :=
  List.replicate (min l.level padding) blank ++ l.pfx.map Subtype.val ++ openParen ::
    (print l.data ++ [closeParen])

theorem DumpLine.text_eq (print : Option V → List UInt8) (l : DumpLine V) :
    l.text print = l.body print ++ [newline] := by
  simp [DumpLine.text, DumpLine.body]

/-- **A line has one line end**, where the data are printed without one. -/
theorem DumpLine.Plain.newline_notMem {print : Option V → List UInt8} {l : DumpLine V} (h : l.Plain)
    (hprint : ∀ d, newline ∉ print d) : newline ∉ l.body print := by
  have hpfx : newline ∉ l.pfx.map Subtype.val := by
    intro hmem
    obtain ⟨c, hc, he⟩ := List.mem_map.mp hmem
    exact (h.2 c hc).2 he
  have hblanks : newline ∉ List.replicate (min l.level padding) blank :=
    fun hmem => absurd (List.eq_of_mem_replicate hmem) (by decide)
  have hopen : newline ≠ openParen := by decide
  have hclose : newline ≠ closeParen := by decide
  simp only [DumpLine.body, List.mem_append, List.mem_cons, not_or]
  exact ⟨⟨hblanks, hpfx⟩, hopen, hprint _, hclose, List.not_mem_nil⟩

/-- **The body of a line determines it**: the blanks end where the prefix begins, and the prefix ends at
the parenthesis. -/
theorem eq_of_body {print : Option V → List UInt8} (hinj : Function.Injective print) {l l' : DumpLine V}
    (h : l.Plain) (h' : l'.Plain) (hl : l.level < padding) (he : l.body print = l'.body print) : l = l' := by
  have hopen : ∀ {l : DumpLine V}, l.Plain → openParen ∉ l.pfx.map Subtype.val := by
    intro l h hmem
    obtain ⟨c, hc, hv⟩ := List.mem_map.mp hmem
    exact (h.2 c hc).1 hv
  have hhead : ∀ {l : DumpLine V} (r : List UInt8), l.Plain →
      (l.pfx.map Subtype.val ++ openParen :: r).head? ≠ some blank := by
    intro l r h
    cases hp : l.pfx with
    | nil => exact fun h0 => absurd (Option.some.inj h0) (by decide)
    | cons c q => exact fun h0 => h.1 c (by rw [hp]; rfl) (Option.some.inj h0)
  rw [DumpLine.body, DumpLine.body, List.append_assoc, List.append_assoc] at he
  obtain ⟨hlevel, he⟩ := replicate_append_inj (hhead _ h) (hhead _ h') he
  obtain ⟨hpfx, he⟩ := append_cons_inj (hopen h) (hopen h') he
  have hdata := hinj (List.append_cancel_right he)
  have hbytes := (List.map_injective_iff.mpr Subtype.val_injective) hpfx
  obtain ⟨n, p, d⟩ := l
  obtain ⟨n', p', d'⟩ := l'
  simp only at hlevel hdata hbytes hl
  rw [hdata, hbytes, show n = n' by omega]

/-- **The text determines the lines.**  By induction: it is cut at the first line end. -/
theorem eq_of_dumpText {print : Option V → List UInt8} (hinj : Function.Injective print)
    (hprint : ∀ d, newline ∉ print d) : ∀ {ls ls' : List (DumpLine V)}, (∀ l ∈ ls, l.Plain) →
    (∀ l ∈ ls', l.Plain) → (∀ l ∈ ls, l.level < padding) → dumpText print ls = dumpText print ls' →
    ls = ls' := by
  have hne : ∀ (l : DumpLine V) (ls : List (DumpLine V)), dumpText print (l :: ls) ≠ [] := by
    intro l ls
    rw [dumpText, List.flatMap_cons, DumpLine.text_eq]
    simp
  intro ls
  induction ls with
  | nil =>
    intro ls' _ _ _ h
    cases ls' with
    | nil => rfl
    | cons l' ls' => exact absurd h.symm (hne l' ls')
  | cons l ls ih =>
    intro ls' hp hp' hl h
    cases ls' with
    | nil => exact absurd h (hne l ls)
    | cons l' ls' =>
      have hpl := hp l List.mem_cons_self
      have hpl' := hp' l' List.mem_cons_self
      rw [dumpText, dumpText, List.flatMap_cons, List.flatMap_cons, DumpLine.text_eq, DumpLine.text_eq,
        List.append_assoc, List.append_assoc] at h
      obtain ⟨hbody, hrest⟩ := append_cons_inj (hpl.newline_notMem hprint) (hpl'.newline_notMem hprint) h
      rw [eq_of_body hinj hpl hpl' (hl l List.mem_cons_self) hbody,
        ih (fun x hx => hp x (List.mem_cons_of_mem _ hx)) (fun x hx => hp' x (List.mem_cons_of_mem _ hx))
          (fun x hx => hl x (List.mem_cons_of_mem _ hx)) hrest]

/-- **What is printed determines the map**: two runs whose dumps are the same text store the same, if the
prefixes are plain, the padding is not used up, and `_print` prints different data differently, each
without a line end. -/
theorem radixTree_dump_determines (print : Option V → List UInt8) (hinj : Function.Injective print)
    (hprint : ∀ d, newline ∉ print d) (t t' : RadixTree V) (m m' : List Byte → Option V)
    (h : Run (fun _ _ => True) t m) (h' : Run (fun _ _ => True) t' m')
    (lines lines' : List (DumpLine V)) (hd : radixTreeDump t = some lines)
    (hd' : radixTreeDump t' = some lines') (hplain : ∀ l ∈ lines, l.Plain)
    (hplain' : ∀ l ∈ lines', l.Plain) (hpad : ∀ l ∈ lines, l.level < padding)
    (heq : dumpText print lines = dumpText print lines') : m = m' := by
  obtain ⟨ls, hl, _, _, hm⟩ := h.dump
  obtain ⟨ls', hl', _, _, hm'⟩ := h'.dump
  rw [hd, Option.some.injEq] at hl
  rw [hd', Option.some.injEq] at hl'
  rw [← hl] at hm
  rw [← hl', ← eq_of_dumpText hinj hprint hplain hplain' hpad heq] at hm'
  funext k
  refine Option.ext (fun v => ?_)
  rw [← hm, hm']

/-- Printing a number: a one for each unit, and `N` for `NULL`. -/
def printUnary : Option Nat → List UInt8
  | none => [0x4E]
  | some n => List.replicate n 0x31

theorem printUnary_injective : Function.Injective printUnary := by
  have hne : ∀ n, ([0x4E] : List UInt8) ≠ List.replicate n 0x31 :=
    fun n h => absurd (List.eq_of_mem_replicate (h ▸ List.mem_singleton_self _)) (by decide)
  intro d d' h
  cases d with
  | none =>
    cases d' with
    | none => rfl
    | some n => exact absurd h (hne n)
  | some n =>
    cases d' with
    | none => exact absurd h.symm (hne n)
    | some n' => rw [List.replicate_left_injective _ h]

/-- The calls of `forkCalls` in another order, with one that is refused, and a key that is removed
again. -/
def mixedCalls : List (List Byte × Option Nat) :=
  [([charA, charB, charB], some 3), ([charB], some 4), ([charA, charB, charA], some 2), ([charB], none),
    ([charA, charA], some 1), ([charA, charA], some 9)]

/-- The tree after them. -/
def mixedTree : RadixTree Nat :=
  (calls mixedCalls (node none none noChildren)).get (by decide +kernel)

theorem mixedTree_run : Run (fun _ _ => True) mixedTree (record mixedCalls (fun _ => none)) :=
  Run.calls mixedCalls (.init rfl) (by decide) (fun _ _ _ _ => trivial) (Option.some_get _).symm

/-- The dump of `forkTree`. -/
def forkLines : List (DumpLine Nat) :=
  [⟨0, [charA], none⟩, ⟨1, [charA], some 1⟩, ⟨1, [charB], none⟩, ⟨2, [charA], some 2⟩,
    ⟨2, [charB], some 3⟩]

theorem dump_forkTree : radixTreeDump forkTree = some forkLines := by decide +kernel

theorem dump_mixedTree : radixTreeDump mixedTree = some forkLines := by decide +kernel

theorem radixTree_dump_determines_forkTree :
    record forkCalls (fun _ => none) = record mixedCalls (fun _ => none) :=
  radixTree_dump_determines printUnary printUnary_injective
    (fun d => by
      cases d with
      | none => decide
      | some n => exact fun h => absurd (List.eq_of_mem_replicate h) (by decide))
    forkTree mixedTree _ _ (forkTree_run _) mixedTree_run forkLines forkLines dump_forkTree
    dump_mixedTree (by decide +kernel) (by decide +kernel) (by decide) rfl

/-- The data of a sorted list of entries, counted by their keys. -/
theorem dataCount_le {l : List (List Byte × Option V)} (hs : l.Pairwise (fun x y => Before x.1 y.1))
    {keys : Finset (List Byte)} (hk : ∀ k v, (k, some v) ∈ l → k ∈ keys) : dataCount l ≤ keys.card := by
  have hn : ((l.filter (fun x => x.2.isSome)).map Prod.fst).Nodup :=
    List.pairwise_map.mpr ((hs.filter _).imp Before.ne)
  rw [dataCount, List.countP_eq_length_filter, ← List.length_map Prod.fst,
    ← List.toFinset_card_of_nodup hn]
  refine Finset.card_le_card (fun k hmem => ?_)
  obtain ⟨⟨k', d⟩, hx, rfl⟩ := List.mem_map.mp (List.mem_toFinset.mp hmem)
  obtain ⟨hx, hd⟩ := List.mem_filter.mp hx
  obtain ⟨v, rfl⟩ := Option.isSome_iff_exists.mp hd
  exact hk _ v hx

/-- **Insertions make fewer nodes than twice the keys.**  After a run without
removals the dump has no more lines than that. -/
theorem radixTree_dump_length (t : RadixTree V) (m : List Byte → Option V)
    (h : Run (fun _ _ => False) t m) (keys : Finset (List Byte))
    (hk : ∀ k, k ∈ keys ↔ (m k).isSome) : ∃ lines, radixTreeDump t = some lines ∧
      lines.length ≤ 2 * keys.card - 1 := by
  obtain ⟨hr, _, hb⟩ := h.induct (P := Below Kept) (below_noChildren _ _ _)
    (fun _ hb hg => hg.below_full le_rfl hb) (fun _ _ hf => hf.elim)
  obtain ⟨lines, hl, he, hs, hm⟩ := h.dump
  have hc : dataCount (readBack [] lines) ≤ keys.card :=
    dataCount_le hs (fun k v hv => (hk k).mpr (Option.isSome_iff_exists.mpr ⟨v, (hm k v).mp hv⟩))
  refine ⟨lines, hl, ?_⟩
  rw [← length_readBack lines []]
  cases t with
  | null => exact absurd rfl hr.ne_null
  | node p d ch =>
    rw [show p = none from hr.pfx, entries, List.cons.injEq] at he
    have hch := entries_flatMap_length
      (fun i hi => entries_length ([] ++ (none : Option (List Byte)).getD []) hi ((hb i).1 hi) (hb i).2) indices
    by_cases h0 : ∀ i, ch i = null
    · rw [← he.2, List.flatMap_eq_nil_iff.mpr (fun i _ => by rw [h0 i, entries])]
      exact Nat.zero_le _
    · have hpos : nodeChildren (node p d ch) ≠ 0 := fun hz => h0 (nodeChildren_eq_zero.mp hz)
      rw [nodeChildren] at hpos
      simp only [children_node] at hpos
      rw [he.2] at hch
      omega

theorem radixTree_dump_length_forkTree : ∃ lines, radixTreeDump forkTree = some lines ∧
    lines.length ≤ 2 * (forkCalls.map Prod.fst).toFinset.card - 1 := by
  have hrecord : record forkCalls (fun _ => none) = Function.update (Function.update (Function.update
      (fun _ => none) [charA, charA] (some 1)) [charA, charB, charA] (some 2))
        [charA, charB, charB] (some 3) := rfl
  refine radixTree_dump_length forkTree _ (forkTree_run _) (forkCalls.map Prod.fst).toFinset fun k => ?_
  rw [hrecord]
  simp only [forkCalls, List.map_cons, List.map_nil, List.mem_toFinset, List.mem_cons,
    List.not_mem_nil, or_false, Function.update_apply]
  split_ifs <;> simp_all

end DataStructures.Radix
