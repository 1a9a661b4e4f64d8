import DataStructures.Tree.Trie.Bounds

/-!
# Words that are too long

`insertEach` inserts words of any length into a trie, whether the allocations succeed or not.
`PrefixFits` and `RegexFits` say in terms of the paths and the words of the trie that a prefix
and a pattern can be listed.

`word_inBounds_iff`: the four listing functions access nothing outside `word` and
`regex->word_list` exactly where both hold.  `word_overrun`: one word of 128 letters, listed by
the empty prefix, has its end written behind `word`.
-/

namespace DataStructures.Trie.Accesses

open Lib Memory Traced Trie.Tree

variable {m m' : Heap} {t : Tree} {v w p : Word} {n level : Nat} {regex : TrieRegex}
  {safe : Nat → Prop} {root : Ptr} {word : Buffer} {s : Str}

/-! ### Paths and words -/

/-- The letters lead from the node to another one. -/
def Path (m : Heap) : Ptr → Word → Prop
  | p, [] => p.isSome
  | p, c :: w => ∃ node, m.load p = some node ∧ Path m (node.children c) w

/-- The word is found. -/
def Stored (m : Heap) (root : Ptr) (w : Word) : Prop := trieSearch m root (some (str w)) = some true

/-- The letters fit the positions of the pattern from `level` on, before its end. -/
def Fits (regex : TrieRegex) (level : Nat) (w : Word) : Prop :=
  ∀ i c, w[i]? = some c → level + i ≠ regex.wordLen.toNat ∧
    ∃ r, Trie.letterRegex regex (level + i) = some r ∧ accepts r c = true

/-- What is listed by a prefix fits into the buffer. -/
structure PrefixFits (m : Heap) (root : Ptr) (s : Str) : Prop where
  path : ∀ x, Path m root x → s <+: str x → x.length ≤ maxWordLen
  stored : ∀ x, Stored m root x → s <+: str x → x.length < maxWordLen
  walk : ∀ x, Path m root x → str x = s.take maxWordLen → s.length ≤ maxWordLen

/-- What is listed by a pattern fits into the buffer. -/
structure RegexFits (m : Heap) (root : Ptr) (regex : TrieRegex) : Prop where
  stored : ∀ x, Stored m root x → x.length = maxWordLen → Fits regex 0 x →
    regex.wordLen.toNat ≠ maxWordLen
  path : ∀ x c, Path m root (x ++ [c]) → x.length = maxWordLen → Fits regex 0 x →
    regex.wordLen.toNat = maxWordLen

theorem path_iff (h : Holds m t) : Path m t.ptr w ↔ t.sub w ≠ nil := by
  induction w generalizing t with
  | nil => rw [Path, sub_nil, isSome_ptr]
  | cons c w ih =>
    cases t with
    | nil =>
      rw [nil_sub]
      exact iff_of_false (fun ⟨_, hn, _⟩ => by cases hn) (· rfl)
    | node a leaf kids =>
      rw [node_sub_cons, ← ih (h.2 c), Path, ptr_node, h.load]
      refine ⟨?_, fun hp => ⟨_, rfl, hp⟩⟩
      rintro ⟨node, hn, hp⟩
      obtain rfl := Option.some.inj hn
      exact hp

theorem stored_iff (h : Holds m t) (ht : t ≠ nil) : Stored m t.ptr w ↔ t.leafAt w = true := by
  rw [Stored, trieSearch_eq h ht, Option.some.injEq]

theorem path_of_leafAt (h : t.leafAt w = true) : t.sub w ≠ nil := by
  intro hn
  rw [leafAt, hn] at h
  exact Bool.noConfusion h

theorem fits_cons {c : Fin childrenNo} : Fits regex level (c :: w) ↔
    (level ≠ regex.wordLen.toNat ∧ ∃ r, Trie.letterRegex regex level = some r ∧
      accepts r c = true) ∧ Fits regex (level + 1) w := by
  refine ⟨fun h => ⟨h 0 c rfl, fun i d hi => ?_⟩, fun h i d hi => ?_⟩
  · rw [Nat.add_assoc, Nat.add_comm 1 i]
    exact h (i + 1) d hi
  · cases i with
    | zero =>
      obtain rfl := Option.some.inj hi
      exact h.1
    | succ i =>
      rw [Nat.add_comm i 1, ← Nat.add_assoc]
      exact h.2 i d hi

/-! ### The bounds of a tree -/

/-- **All words**, in terms of the paths. -/
theorem bounded_iff : Bounded safe t level ↔
    (∀ v c, t.sub (v ++ [c]) ≠ nil → level + v.length < maxWordLen) ∧
      ∀ v, t.leafAt v = true → safe (level + v.length) := by
  induction t generalizing level with
  | nil =>
    refine ⟨fun _ => ⟨fun v c hne => absurd (nil_sub _) hne, fun v hv => ?_⟩, fun _ => trivial⟩
    exact absurd (nil_sub v) (path_of_leafAt hv)
  | node a leaf kids ih =>
    constructor
    · rintro ⟨hleaf, hkids⟩
      refine ⟨fun v c hne => ?_, fun v hv => ?_⟩
      · cases v with
        | nil => exact (hkids c (kid_ne_nil hne)).1
        | cons d v =>
          have hlt := (ih d |>.mp (hkids d (kid_ne_nil hne)).2).1 v c hne
          rw [List.length_cons]
          omega
      · cases v with
        | nil => exact hleaf hv
        | cons d v =>
          have hsafe := (ih d |>.mp (hkids d (kid_ne_nil (path_of_leafAt hv))).2).2 v hv
          rw [List.length_cons, Nat.add_comm v.length 1, ← Nat.add_assoc]
          exact hsafe
    · rintro ⟨hpath, hleaf⟩
      refine ⟨fun hl => hleaf [] hl, fun i hc => ⟨?_, (ih i).mpr ⟨fun v c hne => ?_, fun v hv => ?_⟩⟩⟩
      · refine hpath [] i ?_
        rw [List.nil_append, node_sub_cons, sub_nil]
        exact hc
      · have hlt := hpath (i :: v) c hne
        rw [List.length_cons] at hlt
        omega
      · have hsafe := hleaf (i :: v) hv
        rw [List.length_cons, Nat.add_comm v.length 1, ← Nat.add_assoc] at hsafe
        exact hsafe

/-- **The words that fit a pattern**, in terms of the paths. -/
theorem regexBounded_iff : RegexBounded safe regex t level ↔ ∀ v, Fits regex level v →
    (level + v.length = regex.wordLen.toNat → t.leafAt v = true → safe (level + v.length)) ∧
    (level + v.length ≠ regex.wordLen.toNat → ∀ c, t.sub (v ++ [c]) ≠ nil →
      level + v.length < maxWordLen) := by
  induction t generalizing level with
  | nil =>
    refine ⟨fun _ v _ => ⟨fun _ hv => ?_, fun _ c hne => absurd (nil_sub _) hne⟩, fun _ => trivial⟩
    exact absurd (nil_sub v) (path_of_leafAt hv)
  | node a leaf kids ih =>
    constructor
    · rintro ⟨hleaf, hkids⟩ v hv
      cases v with
      | nil => exact ⟨hleaf, fun hne c hc => (hkids hne c (kid_ne_nil hc)).1⟩
      | cons d v =>
        obtain ⟨⟨hne, r, hr, ha⟩, hv⟩ := fits_cons.mp hv
        rw [List.length_cons, Nat.add_comm v.length 1, ← Nat.add_assoc]
        refine ⟨fun he hl => ?_, fun hne' c hc => ?_⟩
        · have hb := (hkids hne d (kid_ne_nil (path_of_leafAt hl))).2 r hr ha
          exact ((ih d).mp hb v hv).1 he hl
        · have hb := (hkids hne d (kid_ne_nil hc)).2 r hr ha
          exact ((ih d).mp hb v hv).2 hne' c hc
    · intro hall
      have hnil : Fits regex level [] := fun i c hi => by cases hi
      refine ⟨(hall [] hnil).1, fun hne i hc => ⟨?_, fun r hr ha => (ih i).mpr (fun v hv => ?_)⟩⟩
      · refine (hall [] hnil).2 hne i ?_
        rw [List.nil_append, node_sub_cons, sub_nil]
        exact hc
      · have hv := hall (i :: v) (fits_cons.mpr ⟨⟨hne, r, hr, ha⟩, hv⟩)
        rw [List.length_cons, Nat.add_comm v.length 1, ← Nat.add_assoc] at hv
        exact hv

theorem Bounded.mono {safe' : Nat → Prop} (h : Bounded safe t level) (hs : ∀ n, safe n → safe' n) :
    Bounded safe' t level := by
  rw [bounded_iff] at h ⊢
  exact ⟨h.1, fun v hv => hs _ (h.2 v hv)⟩

theorem RegexBounded.mono {safe' : Nat → Prop} (h : RegexBounded safe regex t level)
    (hs : ∀ n, safe n → safe' n) : RegexBounded safe' regex t level := by
  rw [regexBounded_iff] at h ⊢
  exact fun v hv => ⟨fun he hl => hs _ ((h v hv).1 he hl), (h v hv).2⟩

/-- A pattern has no more than 128 positions. -/
theorem Fits.length_le (h : Fits regex 0 w) : w.length ≤ maxWordLen := by
  by_contra hno
  have hlt : maxWordLen < w.length := by omega
  obtain ⟨-, r, hr, -⟩ := h maxWordLen w[maxWordLen] (List.getElem?_eq_getElem hlt)
  rw [Trie.letterRegex, dif_neg (by omega)] at hr
  cases hr

theorem regexFits_iff (h : Holds m t) (ht : t ≠ nil) :
    RegexBounded (· < maxWordLen) regex t 0 ↔ RegexFits m t.ptr regex := by
  rw [regexBounded_iff]
  simp only [Nat.zero_add]
  constructor
  · intro hall
    refine ⟨fun x hx hlen hfits he => ?_, fun x c hx hlen hfits => ?_⟩
    · have hlt := (hall x hfits).1 (hlen.trans he.symm) ((stored_iff h ht).mp hx)
      omega
    · by_contra hne
      have hlt := (hall x hfits).2 (by omega) c ((path_iff h).mp hx)
      omega
  · rintro ⟨hstored, hpath⟩ v hv
    have hle := hv.length_le
    by_cases hlen : v.length = maxWordLen
    · refine ⟨fun he hl => ?_, fun hne c hc => ?_⟩
      · exact absurd (he.symm.trans hlen) (hstored v ((stored_iff h ht).mpr hl) hlen hv)
      · exact absurd (hlen.trans (hpath v c ((path_iff h).mpr hc) hlen hv).symm) hne
    · exact ⟨fun _ _ => by omega, fun _ _ _ => by omega⟩

/-! ### The way along the prefix -/

theorem letter_of_childIdx {c : UInt8} {i : Fin childrenNo} (h : childIdx c = some i) :
    letter i = c := by
  rw [childIdx] at h
  split at h
  · obtain rfl := Option.some.inj h
    rw [letter]
    refine UInt8.toNat_inj.mp ?_
    rename_i hlt
    simp only [UInt8.toNat_ofNat', UInt8.toNat_sub]
    have hc := c.toNat_lt
    simp only [UInt8.reduceToNat]
    omega
  · cases h

/-- **The loop over the prefix** writes at the depth of each node it comes to before its end. -/
theorem triePrefixFrom_within (h : Holds m t) (ht : t ≠ nil) (i : Nat) (word : Buffer) :
    Safe (triePrefixFrom m t.ptr s i word) ↔
      ∀ p, str p <+: s → p.length < s.length → t.sub p ≠ nil → i + p.length < maxWordLen := by
  induction s generalizing t i word with
  | nil => exact iff_of_true (within_pure _) (fun p _ hlt => absurd hlt (Nat.not_lt_zero _))
  | cons c s ih =>
    cases t with
    | nil => exact absurd rfl ht
    | node a leaf kids =>
      rw [ptr_node, triePrefixFrom]
      constructor
      · intro hs p hp hlen hne
        obtain ⟨hput, hrest⟩ := within_bind.mp hs
        have hi : i < maxWordLen := (within_access_bind.mp hput).1
        cases p with
        | nil => exact hi
        | cons d p =>
          obtain ⟨rfl, hp'⟩ := List.cons_prefix_cons.mp hp
          have hput : (putChar word i (letter d)).result = _ :=
            (result_putChar word i (letter d)).trans (if_pos hi)
          replace hrest := (within_lift_bind h.load).mp
            ((within_lift_bind (childIdx_letter d)).mp (hrest _ hput))
          rw [if_neg (not_isNone_ptr.mpr (kid_ne_nil hne))] at hrest
          have hlt := (ih (h.2 d) (kid_ne_nil hne) (i + 1) _).mp hrest p hp'
            (Nat.lt_of_succ_lt_succ hlen) hne
          rw [List.length_cons]
          omega
      · intro hall
        have hi : i < maxWordLen := hall [] List.nil_prefix (Nat.succ_pos _) ht
        refine safe_putChar_bind hi (fun word => within_bind.mpr ⟨within_lift _, fun d hd => ?_⟩)
        obtain rfl := letter_of_childIdx hd
        refine (within_lift_bind h.load).mpr ?_
        by_cases hc : kids d = nil
        · rw [if_pos (isNone_ptr.mpr hc)]
          exact within_pure _
        · rw [if_neg (not_isNone_ptr.mpr hc)]
          refine (ih (h.2 d) hc (i + 1) word).mpr (fun p hp hlen hne => ?_)
          have hlt := hall (d :: p) (List.cons_prefix_cons.mpr ⟨rfl, hp⟩) (Nat.succ_lt_succ hlen) hne
          rw [List.length_cons] at hlt
          omega

/-- A node that the loop ends at is the one the prefix leads to. -/
theorem triePrefixFrom_found (h : Holds m t) (ht : t ≠ nil) {i : Nat} {q : Ptr} {word' : Buffer}
    (hr : (triePrefixFrom m t.ptr s i word).result = some (q, word')) (hq : ¬ q.isNone = true) :
    ∃ p, s = str p ∧ t.sub p ≠ nil ∧ q = (t.sub p).ptr := by
  induction s generalizing t i word with
  | nil =>
    obtain ⟨rfl, rfl⟩ := Prod.mk.inj (Option.some.inj hr)
    refine ⟨[], rfl, ?_, ?_⟩
    · rwa [sub_nil]
    · rw [sub_nil]
  | cons c s ih =>
    cases t with
    | nil => exact absurd rfl ht
    | node a leaf kids =>
      rw [ptr_node, triePrefixFrom, result_bind] at hr
      obtain ⟨word₁, -, hr₁⟩ := Option.bind_eq_some_iff.mp hr
      rw [result_bind] at hr₁
      obtain ⟨d, hd, hr₂⟩ := Option.bind_eq_some_iff.mp hr₁
      obtain rfl := letter_of_childIdx hd
      rw [result_bind, result_lift, h.load, Option.bind_some] at hr₂
      by_cases hc : kids d = nil
      · rw [if_pos (isNone_ptr.mpr hc)] at hr₂
        obtain ⟨rfl, -⟩ := Prod.mk.inj (Option.some.inj hr₂)
        exact absurd rfl hq
      · rw [if_neg (not_isNone_ptr.mpr hc)] at hr₂
        obtain ⟨p, rfl, hne, rfl⟩ := ih (h.2 d) hc hr₂
        exact ⟨d :: p, rfl, hne, rfl⟩

theorem exists_append_of_prefix {x : Word} (h : s <+: str x) : ∃ p v, x = p ++ v ∧ s = str p := by
  obtain ⟨r, hr⟩ := h
  obtain ⟨p, v, rfl, rfl, -⟩ := List.map_eq_append_iff.mp hr.symm
  exact ⟨p, v, rfl, rfl⟩

/-- Where the loop over a prefix stays inside, the prefix has no more than 128 letters. -/
theorem length_le_of_walk (hwalk : ∀ q, str q <+: str p → q.length < (str p).length → t.sub q ≠ nil →
    q.length < maxWordLen) (hp : t.sub p ≠ nil) : p.length ≤ maxWordLen := by
  rcases List.eq_nil_or_concat p with rfl | ⟨q, c, rfl⟩
  · exact Nat.zero_le _
  · rw [List.concat_eq_append] at hwalk hp ⊢
    have hpre : q <+: q ++ [c] := List.prefix_append q [c]
    have hlt : q.length < (q ++ [c]).length := by
      rw [List.length_append]
      exact Nat.lt_succ_self _
    have hq : t.sub q ≠ nil := sub_ne_nil_of_prefix hpre hp
    rw [List.length_append]
    exact hwalk q (hpre.map letter) (by rwa [length_str]) hq

/-- Where a prefix fits, the loop over it stays inside, and the tree it leads to has bounds. -/
theorem PrefixFits.bounds (hs : PrefixFits m t.ptr s) (h : Holds m t) (ht : t ≠ nil) :
    (∀ p, str p <+: s → p.length < s.length → t.sub p ≠ nil → p.length < maxWordLen) ∧
      ∀ p, s = str p → t.sub p ≠ nil → Bounded (· < maxWordLen) (t.sub p) p.length := by
  obtain ⟨hpath, hstored, hwalk⟩ := hs
  refine ⟨fun p hp hlen hne => ?_, fun p hs _ => bounded_iff.mpr ⟨fun v c hc => ?_, fun v hv => ?_⟩⟩
  · by_contra hno
    have hcut : str (p.take maxWordLen) = s.take maxWordLen := by
      rw [str_take, List.prefix_iff_eq_take.mp hp, List.take_take, length_str,
        Nat.min_eq_left (by omega)]
    have hcut' : t.sub (p.take maxWordLen) ≠ nil := sub_ne_nil_of_prefix (List.take_prefix _ _) hne
    have hle := hwalk _ ((path_iff h).mpr hcut') hcut
    omega
  · rw [← sub_append] at hc
    have hle := hpath _ ((path_iff h).mpr hc) (hs ▸ (List.prefix_append p _).map letter)
    rw [List.length_append, List.length_append, List.length_singleton] at hle
    omega
  · rw [leafAt, ← sub_append] at hv
    have hlt := hstored _ ((stored_iff h ht).mpr hv) (hs ▸ (List.prefix_append p v).map letter)
    rwa [List.length_append] at hlt

theorem prefixFits_of_bounds (h : Holds m t) (ht : t ≠ nil)
    (hwalk : ∀ p, str p <+: s → p.length < s.length → t.sub p ≠ nil → p.length < maxWordLen)
    (hbound : ∀ p, s = str p → t.sub p ≠ nil → Bounded (· < maxWordLen) (t.sub p) p.length) :
    PrefixFits m t.ptr s := by
  refine ⟨fun x hx hs => ?_, fun x hx hs => ?_, fun x hx hs => ?_⟩
  · obtain ⟨p, v, rfl, rfl⟩ := exists_append_of_prefix hs
    have hne := (path_iff h).mp hx
    have hp : t.sub p ≠ nil := sub_ne_nil_of_prefix (List.prefix_append p v) hne
    rcases List.eq_nil_or_concat v with rfl | ⟨v, c, rfl⟩
    · -- the prefix itself: its last letter was written on the way
      rw [List.append_nil]
      exact length_le_of_walk hwalk hp
    · rw [List.concat_eq_append, sub_append] at hne
      have hlt := (bounded_iff.mp (hbound p rfl hp)).1 v c hne
      rw [List.length_append, List.length_concat]
      omega
  · obtain ⟨p, v, rfl, rfl⟩ := exists_append_of_prefix hs
    have hl := (stored_iff h ht).mp hx
    have hp : t.sub p ≠ nil := sub_ne_nil_of_prefix (List.prefix_append p v) (path_of_leafAt hl)
    rw [leafAt, sub_append] at hl
    rw [List.length_append]
    exact (bounded_iff.mp (hbound p rfl hp)).2 v hl
  · by_contra hno
    have hlen : x.length = maxWordLen := by
      rw [← length_str, hs, List.length_take]
      omega
    have hlt := hwalk x (hs ▸ List.take_prefix _ _) (by omega) ((path_iff h).mp hx)
    omega

/-! ### The functions -/

/-- A caller's list without words. -/
def noWords : WordHeap := ⟨fun _ => some none, fun _ => none, 0, .allOk⟩

theorem listable_noWords : Listable noWords :=
  ⟨rfl, [], [], ⟨⟨List.nodup_singleton _, rfl⟩, rfl, fun _ he => absurd he List.not_mem_nil⟩⟩

/-- The loop over the prefix, and what is done with the node it ends at. -/
theorem walk_within {β : Type} {k : Ptr × Buffer → Traced Access β} (h : Good m root n t)
    (hs : PrefixFits m root s) (hnone : ∀ word, Safe (k (none, word)))
    (hk : ∀ p word, s = str p → t.sub p ≠ nil → Bounded (· < maxWordLen) (t.sub p) p.length →
      Safe (k ((t.sub p).ptr, word))) :
    Safe (triePrefixFrom m root s 0 word >>= k) := by
  rw [← h.ptr] at hs ⊢
  obtain ⟨hwalk, hbound⟩ := hs.bounds h.holds h.ne_nil
  refine within_bind.mpr ⟨(triePrefixFrom_within h.holds h.ne_nil 0 _).mpr (fun p hp hlen hne => ?_),
    fun qw hr => ?_⟩
  · rw [Nat.zero_add]
    exact hwalk p hp hlen hne
  · obtain ⟨q, word'⟩ := qw
    by_cases hq : q.isNone = true
    · obtain rfl := Option.isNone_iff_eq_none.mp hq
      exact hnone word'
    · obtain ⟨p, hp, hne, rfl⟩ := triePrefixFrom_found h.holds h.ne_nil hr hq
      exact hk p word' hp hne (hbound p hp hne)

theorem getByPrefix_within (h : Good m root n t) (hs : PrefixFits m root s) (l : WordHeap) :
    Safe (trieGetLeafsByPrefix m root s l) := by
  rw [trieGetLeafsByPrefix, if_neg h.isSome]
  refine walk_within h hs (fun word => within_pure _) (fun p word hp hne hb => ?_)
  subst hp
  rw [length_str]
  have hsome : ¬ ((t.sub p).ptr).isNone = true := not_isNone_ptr.mpr hne
  simp only [if_neg hsome]
  refine within_bind.mpr ⟨recursiveLeafs_within emits_addWord (h.holds.sub p) hb _ _, fun r _ => ?_⟩
  obtain ⟨failed, word', l'⟩ := r
  cases failed with
  | false => exact within_pure _
  | true => exact within_bind.mpr ⟨within_lift _, fun _ _ => within_pure _⟩

theorem printByPrefix_within (h : Good m root n t) (hs : PrefixFits m root s) :
    Safe (triePrintLeafsByPrefix m root s) := by
  rw [triePrintLeafsByPrefix, if_neg h.isSome]
  refine walk_within h hs (fun word => within_pure _) (fun p word hp hne hb => ?_)
  subst hp
  rw [length_str]
  have hsome : ¬ ((t.sub p).ptr).isNone = true := not_isNone_ptr.mpr hne
  simp only [if_neg hsome]
  exact within_bind.mpr ⟨recursiveLeafs_within emits_printWord (h.holds.sub p)
    (hb.mono (fun _ _ => trivial)) _ _, fun _ _ => within_pure _⟩

/-- **The other direction**, with an empty list and allocations that succeed. -/
theorem prefixFits_of_within (h : Good m root n t) (hs : Safe (trieGetLeafsByPrefix m root s noWords)) :
    PrefixFits m root s := by
  rw [trieGetLeafsByPrefix, if_neg h.isSome] at hs
  rw [← h.ptr] at hs ⊢
  obtain ⟨hwalk, hrest⟩ := within_bind.mp hs
  replace hwalk := (triePrefixFrom_within h.holds h.ne_nil 0 _).mp hwalk
  simp only [Nat.zero_add] at hwalk
  refine prefixFits_of_bounds h.holds h.ne_nil hwalk (fun p hp hne => ?_)
  subst hp
  have hlen : p.length ≤ maxWordLen := length_le_of_walk hwalk hne
  obtain ⟨word', hr, hf⟩ := triePrefixFrom_spec h.holds h.ne_nil (filled_nil (fun _ => none)) (w := p)
    (by rw [List.length_nil]; omega)
  rw [← result_triePrefixFrom] at hr
  have hsome : ¬ ((t.sub p).ptr).isNone = true := not_isNone_ptr.mpr hne
  have hcall := hrest _ hr
  simp only [if_neg hsome, length_str] at hcall
  exact (recursiveLeafs_run emits_addWord (h.holds.sub p) hne ((h.holds.sub p).deep (h.distinct.sub p))
    ⟨hf hne, listable_noWords⟩ (within_bind.mp hcall).1).1

theorem getByRegex_within (h : Good m root n t) (hs : RegexFits m root regex) (l : WordHeap) :
    Safe (trieGetLeafsByRegex m root regex l) := by
  rw [← h.ptr, ← regexFits_iff h.holds h.ne_nil] at hs
  rw [trieGetLeafsByRegex, ← h.ptr]
  split
  · exact within_pure _
  · refine within_bind.mpr ⟨recursiveRegex_within emits_addWord h.holds hs _ _, fun r _ => ?_⟩
    obtain ⟨failed, word', l'⟩ := r
    cases failed with
    | false => exact within_pure _
    | true => exact within_bind.mpr ⟨within_lift _, fun _ _ => within_pure _⟩

theorem printByRegex_within (h : Good m root n t) (hs : RegexFits m root regex) :
    Safe (triePrintLeafsByRegex m root regex) := by
  rw [← h.ptr, ← regexFits_iff h.holds h.ne_nil] at hs
  rw [triePrintLeafsByRegex, ← h.ptr]
  split
  · exact within_pure _
  · exact within_bind.mpr ⟨recursiveRegex_within emits_printWord h.holds
      (hs.mono (fun _ _ => trivial)) _ _, fun _ _ => within_pure _⟩

theorem regexFits_of_within (h : Good m root n t)
    (hs : Safe (trieGetLeafsByRegex m root regex noWords)) : RegexFits m root regex := by
  rw [← h.ptr, ← regexFits_iff h.holds h.ne_nil]
  by_cases hinv : ∃ k r, k < regex.wordLen.toNat ∧ Trie.letterRegex regex k = some r ∧ r.opt = .other
  · obtain ⟨k, r, hk, hr, hopt⟩ := hinv
    exact regexBounded_of_invalid hk hr hopt (Nat.zero_le k)
  · have hopt : Options regex := fun i r hi hr ho => hinv ⟨i, r, hi, hr, ho⟩
    by_cases hlen : regex.wordLen = 0
    · -- the pattern without letters is refused, and only the root would be read
      refine regexBounded_iff.mpr (fun v hv => ⟨fun _ _ => ?_, fun _ _ _ => ?_⟩)
      all_goals
        cases v with
        | nil => decide
        | cons c v => exact absurd (by rw [hlen]; rfl) (hv 0 c rfl).1
    · have hgo : ¬ (root.isNone || decide (regex.wordLen = 0)) = true := by
        rw [Bool.or_eq_true, not_or, decide_eq_true_eq]
        exact ⟨h.isSome, hlen⟩
      rw [trieGetLeafsByRegex, if_neg hgo, ← h.ptr] at hs
      exact (recursiveRegex_run (w := []) emits_addWord hopt h.holds h.ne_nil (h.holds.deep h.distinct)
        (Nat.zero_le _) ⟨filled_nil _, listable_noWords⟩ (within_bind.mp hs).1).1

/-! ### Tries of any words -/

/-- `trie_insert` of words, one after the other, also where a node could not be made. -/
def insertEach : Heap → Ptr → List Word → Option Heap
  | m, _, [] => some m
  | m, root, w :: ws => do
      let (_, m) ← trieInsert m root (some (str w))
      insertEach m root ws

theorem insertEach_spec (ws : List Word) (h : Good m root n t) :
    ∃ m' n' t', insertEach m root ws = some m' ∧ Good m' root n' t' ∧
      (m.outcomes = Outcomes.allOk → ∀ S, Stores t S → Stores t' (S ++ ws)) := by
  induction ws generalizing m n t with
  | nil =>
    refine ⟨m, n, t, rfl, h, fun _ S hS => ?_⟩
    rwa [List.append_nil]
  | cons w ws ih =>
    have hdeep : t.Deep (n + w.length + 1) := h.deep.mono (by omega)
    obtain ⟨ok, m₁, t₁, hr, h₁, hadds, hall⟩ :=
      Good.insert ⟨h.holds, h.distinct, h.ne_nil, h.ptr, hdeep⟩ (w := w) (by omega)
    obtain ⟨m', n', t', hr', h', hstores⟩ := ih h₁
    refine ⟨m', n', t', ?_, h', fun ho S hS => ?_⟩
    · rw [insertEach, hr]
      exact hr'
    · obtain ⟨rfl, ho₁⟩ := hall ho
      rw [List.append_cons]
      exact hstores ho₁ _ (hS.add (hadds rfl))

/-- Nothing is accessed outside `word` and `regex->word_list`, whatever the list of the caller
holds and the allocations answer. -/
structure WordInBounds (m : Heap) (root : Ptr) (s : Str) (regex : TrieRegex) : Prop where
  getByPrefix : ∀ l, Safe (trieGetLeafsByPrefix m root s l)
  printByPrefix : Safe (triePrintLeafsByPrefix m root s)
  getByRegex : ∀ l, Safe (trieGetLeafsByRegex m root regex l)
  printByRegex : Safe (triePrintLeafsByRegex m root regex)

theorem good_inBounds_iff (h : Good m root n t) : WordInBounds m root s regex ↔
    PrefixFits m root s ∧ RegexFits m root regex := by
  constructor
  · intro hw
    exact ⟨prefixFits_of_within h (hw.getByPrefix noWords),
      regexFits_of_within h (hw.getByRegex noWords)⟩
  · rintro ⟨hs, hr⟩
    exact ⟨getByPrefix_within h hs, printByPrefix_within h hs, getByRegex_within h hr,
      printByRegex_within h hr⟩

theorem first_of_create {m₀ m₁ : Heap} {a : Nat} (h : trieNodeCreate m₀ = (some a, m₁)) :
    m₀.outcomes.first = true := by
  cases hf : m₀.outcomes.first with
  | true => rfl
  | false =>
    rw [trieNodeCreate, malloc_fail hf] at h
    cases h

theorem good_of_create {m₀ m₁ : Heap} {a : Nat} (h : trieNodeCreate m₀ = (some a, m₁)) :
    Good m₁ (some a) 1 (fresh a) := by
  obtain ⟨m, hr, hgood, -⟩ := trieNodeCreate_good (n := 1) m₀ Nat.one_pos (first_of_create h)
  rw [hr] at h
  cases h
  exact hgood

/-- **Where the word buffer is not overrun.**  The trie is built from a new root by any insertions,
of words of any length; then the listing functions stay inside `word` and `regex->word_list`
exactly where the prefix and the pattern fit. -/
theorem word_inBounds_iff (m₀ m₁ : Heap) (a : Nat) (words : List Word)
    (hcreate : trieNodeCreate m₀ = (some a, m₁)) :
    ∃ m, insertEach m₁ (some a) words = some m ∧ ∀ (s : Str) (regex : TrieRegex),
      WordInBounds m (some a) s regex ↔ PrefixFits m (some a) s ∧ RegexFits m (some a) regex := by
  obtain ⟨m, n, t, hr, h, -⟩ := insertEach_spec words (good_of_create hcreate)
  exact ⟨m, hr, fun s regex => good_inBounds_iff h⟩

theorem word_inBounds_iff_example :
    ∃ m, insertEach (trieNodeCreate (Memory.empty Outcomes.allOk)).2 (some 0) [[0, 1], [0]] = some m ∧
      ∀ (s : Str) (regex : TrieRegex), WordInBounds m (some 0) s regex ↔
        PrefixFits m (some 0) s ∧ RegexFits m (some 0) regex :=
  word_inBounds_iff (Memory.empty Outcomes.allOk) _ 0 [[0, 1], [0]] rfl

/-- **One word of 128 letters.**  Its end is written behind the buffer. -/
theorem word_overrun : ∃ m,
    insertEach (trieNodeCreate (Memory.empty Outcomes.allOk)).2 (some 0)
      [List.replicate maxWordLen 0] = some m ∧
    ¬ Safe (trieGetLeafsByPrefix m (some 0) [] noWords) := by
  have hcreate : trieNodeCreate (Memory.empty Outcomes.allOk) =
      (some 0, (trieNodeCreate (Memory.empty Outcomes.allOk)).2) := rfl
  have h := good_of_create hcreate
  have hdeep : (fresh 0).Deep (1 + maxWordLen) := h.deep.mono (by omega)
  obtain ⟨ok, m, t, hr, hgood, hadds, hall⟩ :=
    Good.insert ⟨h.holds, h.distinct, h.ne_nil, h.ptr, hdeep⟩ (w := List.replicate maxWordLen 0)
      (by rw [List.length_replicate]; omega)
  obtain ⟨rfl, -⟩ := hall rfl
  refine ⟨m, ?_, fun hs => ?_⟩
  · rw [insertEach, hr]
    rfl
  · have hfits := prefixFits_of_within hgood hs
    have hleaf : t.leafAt (List.replicate maxWordLen 0) = true := ((hadds rfl).leafAt _).mpr (Or.inr rfl)
    have hstored := (stored_iff hgood.holds hgood.ne_nil).mpr hleaf
    rw [hgood.ptr] at hstored
    have hlt := hfits.stored _ hstored List.nil_prefix
    rw [List.length_replicate] at hlt
    exact Nat.lt_irrefl _ hlt

end DataStructures.Trie.Accesses
