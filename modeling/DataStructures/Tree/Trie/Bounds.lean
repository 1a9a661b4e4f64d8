import DataStructures.Tree.Trie.Accesses
import DataStructures.Tree.Trie.Exact

/-!
# The word buffer

`Bounded safe t level`: listing the tree `t` from `level` on writes inside the buffer; `safe`
says where a word may end.  `RegexBounded` says the same of a listing by a pattern.

Where this is so, nothing outside is accessed, whatever the list of the caller holds
(`recursiveLeafs_within`, `recursiveRegex_within`).  Where nothing outside is accessed and the
allocations succeed, a listing gets to the end of every path, so it must be so
(`recursiveLeafs_run`, `recursiveRegex_run`).
-/

namespace DataStructures.Trie.Accesses

open Lib Memory Traced Trie.Tree

variable {σ : Type} {m : Heap} {t : Tree} {w v x : Word} {a n level : Nat} {regex : TrieRegex}
  {emit : Emit σ} {safe : Nat → Prop} {J : σ → Prop}

/-- Nothing is accessed outside an array. -/
abbrev Safe {α : Type} (c : Traced Access α) : Prop := Within Access.InBounds c

/-! ### Loops -/

theorem safe_andThen {r : Traced Access (Bool × σ)} {f : σ → Traced Access (Bool × σ)} (hr : Safe r)
    (hf : ∀ s, Safe (f s)) : Safe (andThen r f) := by
  refine within_bind.mpr ⟨hr, fun fs _ => ?_⟩
  obtain ⟨failed, s⟩ := fs
  cases failed with
  | true => exact within_pure _
  | false => exact hf s

theorem safe_eachChild {f : Fin childrenNo → σ → Traced Access (Bool × σ)} (hf : ∀ i s, Safe (f i s))
    (is : List (Fin childrenNo)) (s : σ) : Safe (eachChild f is s) := by
  induction is generalizing s with
  | nil => exact within_pure _
  | cons i is ih => exact safe_andThen (hf i s) ih

/-- Where the first part has not failed the second one is run. -/
theorem andThen_run {r : Traced Access (Bool × σ)} {f : σ → Traced Access (Bool × σ)} {s : σ}
    (hr : r.result = some (false, s)) (hs : Safe (andThen r f)) :
    Safe (f s) ∧ (andThen r f).result = (f s).result := by
  refine ⟨(within_bind.mp hs).2 _ hr, ?_⟩
  rw [result_andThen, hr]
  rfl

/-- **A loop that runs to its end**, with what each of its rounds shows. -/
theorem eachChild_run {f : Fin childrenNo → σ → Traced Access (Bool × σ)} (Inv : σ → Prop)
    (B : Fin childrenNo → Prop) (hf : ∀ i s, Inv s → Safe (f i s) →
      B i ∧ ∃ s', (f i s).result = some (false, s') ∧ Inv s') (is : List (Fin childrenNo)) (s : σ)
    (hi : Inv s) (hs : Safe (eachChild f is s)) :
    (∀ i ∈ is, B i) ∧ ∃ s', (eachChild f is s).result = some (false, s') ∧ Inv s' := by
  induction is generalizing s with
  | nil => exact ⟨fun i hi => absurd hi List.not_mem_nil, s, rfl, hi⟩
  | cons i is ih =>
    obtain ⟨hb, s₁, hr₁, hi₁⟩ := hf i s hi (within_bind.mp hs).1
    obtain ⟨hs₁, heq⟩ := andThen_run hr₁ hs
    obtain ⟨hbs, s₂, hr₂, hi₂⟩ := ih s₁ hi₁ hs₁
    refine ⟨fun j hj => ?_, s₂, heq.trans hr₂, hi₂⟩
    rcases List.mem_cons.mp hj with rfl | hj
    · exact hb
    · exact hbs j hj

/-! ### What is done for a word -/

/-- Where a word may end, and what the function keeps. -/
structure Emits (emit : Emit σ) (safe : Nat → Prop) (J : σ → Prop) : Prop where
  within : ∀ word level s, safe level → Safe (emit word level s)
  run : ∀ w word s, Filled word w → J s → Safe (emit word w.length s) → safe w.length ∧
    ∃ word' s', (emit word w.length s).result = some (false, word', s') ∧ Filled word' w ∧ J s'

/-- The list of the caller is in order, and the allocations succeed. -/
def Listable (l : WordHeap) : Prop := l.outcomes = .allOk ∧ ∃ es ws, Entries l es ws

theorem emits_addWord : Emits addWord (· < maxWordLen) Listable := by
  refine ⟨fun word level l hl => within_access_bind.mpr ⟨hl, within_lift _⟩,
    fun w word l hf hj hs => ?_⟩
  have hw : w.length < maxWordLen := (within_access_bind.mp hs).1
  obtain ⟨ho, es, ws, he⟩ := hj
  have hinv : GetInv w es (word, l) ws := ⟨hf, ho, es, List.prefix_refl es, he⟩
  obtain ⟨⟨word', l'⟩, hr, hf', ho', es', -, he'⟩ := hinv.addWord hw
  refine ⟨hw, word', l', ?_, hf', ho', es', _, he'⟩
  rw [result_addWord]
  exact hr

theorem emits_printWord : Emits printWord (fun _ => True) (fun _ => True) := by
  refine ⟨fun word level out _ => within_lift _, fun w word out hf _ _ => ⟨trivial, ?_⟩⟩
  have hinv : PrintInv w (word, out) out := ⟨hf, rfl⟩
  obtain ⟨⟨word', out'⟩, hr, hf', -⟩ := hinv.printWord
  refine ⟨word', out', ?_, hf', trivial⟩
  rw [printWord, result_lift]
  exact congrArg ok hr

/-- The buffer begins with the path, and the rest is in order. -/
def Inv (J : σ → Prop) (w : Word) (s : Buffer × σ) : Prop := Filled s.1 w ∧ J s.2

/-- The word that ends at a node. -/
theorem Emits.leaf (he : Emits emit safe J) {s : Buffer × σ} (hi : Inv J w s) {leaf : Bool}
    (hs : Safe (if leaf then emit s.1 w.length s.2 else pure (false, s))) :
    (leaf = true → safe w.length) ∧
      ∃ s', (if leaf then emit s.1 w.length s.2 else pure (false, s)).result = some (false, s') ∧
        Inv J w s' := by
  cases leaf with
  | false => exact ⟨fun h => Bool.noConfusion h, s, rfl, hi⟩
  | true =>
    obtain ⟨hsafe, word', s', hr, hf, hj⟩ := he.run w s.1 s.2 hi.1 hi.2 hs
    exact ⟨fun _ => hsafe, (word', s'), hr, hf, hj⟩

theorem Emits.safe_leaf (he : Emits emit safe J) {s : Buffer × σ} {leaf : Bool}
    (hl : leaf = true → safe level) :
    Safe (if leaf then emit s.1 level s.2 else pure (false, s)) := by
  cases leaf with
  | false => exact within_pure _
  | true => exact he.within s.1 level s.2 (hl rfl)

theorem safe_putChar_bind {β : Type} {word : Buffer} {c : UInt8} {f : Buffer → Traced Access β}
    (hl : level < maxWordLen) (hf : ∀ word, Safe (f word)) : Safe (putChar word level c >>= f) :=
  within_bind.mpr ⟨within_access_bind.mpr ⟨hl, within_lift _⟩, fun word _ => hf word⟩

/-- **A call for a child.** -/
theorem run_child {B : Prop} {s : Buffer × σ} (hi : Inv J w s) (c : Fin childrenNo)
    {call : Buffer × σ → Traced Access (Bool × Buffer × σ)}
    (hcall : ∀ s, Inv J (w ++ [c]) s → Safe (call s) →
      B ∧ ∃ s', (call s).result = some (false, s') ∧ Inv J (w ++ [c]) s')
    (hs : Safe (do
      let word ← putChar s.1 w.length (letter c)
      call (word, s.2))) :
    (w.length < maxWordLen ∧ B) ∧ ∃ s', (do
      let word ← putChar s.1 w.length (letter c)
      call (word, s.2)).result = some (false, s') ∧ Inv J w s' := by
  obtain ⟨hput, hrest⟩ := within_bind.mp hs
  have hw : w.length < maxWordLen := (within_access_bind.mp hput).1
  obtain ⟨word', hr, hf, hend⟩ := hi.1.putChar (c := letter c) hw
  have hr' : (putChar s.1 w.length (letter c)).result = some word' := by
    rw [result_putChar, hr]
  obtain ⟨hb, s', hr'', hi'⟩ := hcall (word', s.2) ⟨hf.snoc hend, hi.2⟩ (hrest word' hr')
  refine ⟨⟨hw, hb⟩, s', ?_, hi'.1.init, hi'.2⟩
  rw [result_bind, hr', Option.bind_some, hr'']

/-! ### All words -/

/-- Listing the tree from `level` on writes inside the buffer. -/
def Bounded (safe : Nat → Prop) : Tree → Nat → Prop
  | nil, _ => True
  | node _ leaf kids, level => (leaf = true → safe level) ∧
      ∀ i, kids i ≠ nil → level < maxWordLen ∧ Bounded safe (kids i) (level + 1)

theorem recursiveLeafs_within (he : Emits emit safe J) (h : Holds m t) (hb : Bounded safe t level)
    (n : Nat) (s : Buffer × σ) : Safe (recursiveLeafs emit m n t.ptr level s) := by
  induction t generalizing n level s with
  | nil =>
    cases n with
    | zero => exact within_lift _
    | succ n =>
      refine within_bind.mpr ⟨within_lift _, fun node hn => ?_⟩
      cases hn
  | node a leaf kids ih =>
    cases n with
    | zero => exact within_lift _
    | succ n =>
      refine (within_lift_bind h.load).mpr (safe_andThen (he.safe_leaf hb.1) (fun s => ?_))
      refine safe_eachChild (fun i s => ?_) _ s
      by_cases hc : kids i = nil
      · have hnone : ¬ ((kids i).ptr).isSome = true := fun hs => isSome_ptr.mp hs hc
        rw [if_neg hnone]
        exact within_pure _
      · obtain ⟨hlt, hb'⟩ := hb.2 i hc
        rw [if_pos (isSome_ptr.mpr hc)]
        exact safe_putChar_bind hlt (fun word => ih i (h.2 i) hb' n _)

theorem recursiveLeafs_run (he : Emits emit safe J) (h : Holds m t) (ht : t ≠ nil) (hn : t.Deep n)
    {s : Buffer × σ} (hi : Inv J w s) (hs : Safe (recursiveLeafs emit m n t.ptr w.length s)) :
    Bounded safe t w.length ∧
      ∃ s', (recursiveLeafs emit m n t.ptr w.length s).result = some (false, s') ∧ Inv J w s' := by
  induction t generalizing n w s with
  | nil => exact absurd rfl ht
  | node a leaf kids ih =>
    cases n with
    | zero => exact absurd hn id
    | succ n =>
      rw [ptr_node, recursiveLeafs] at hs ⊢
      rw [result_bind, result_lift, h.load, Option.bind_some]
      replace hs := (within_lift_bind h.load).mp hs
      obtain ⟨hleaf, s₁, hr₁, hi₁⟩ := he.leaf hi (within_bind.mp hs).1
      obtain ⟨hs₁, heq⟩ := andThen_run hr₁ hs
      rw [heq]
      refine (eachChild_run (Inv J w)
        (fun i => kids i ≠ nil → w.length < maxWordLen ∧ Bounded safe (kids i) (w.length + 1))
        (fun i s hi hs => ?_) _ s₁ hi₁ hs₁).imp_left
          (fun hkids => ⟨hleaf, fun i => hkids i (List.mem_finRange i)⟩)
      by_cases hc : kids i = nil
      · have hnone : ¬ ((kids i).ptr).isSome = true := fun hs => isSome_ptr.mp hs hc
        rw [if_neg hnone]
        exact ⟨fun hne => absurd hc hne, s, rfl, hi⟩
      · rw [if_pos (isSome_ptr.mpr hc)] at hs ⊢
        have hlen : (w ++ [i]).length = w.length + 1 := List.length_append
        rw [← hlen] at hs ⊢
        obtain ⟨hb, hrun⟩ := run_child hi i (fun s hi hs => ih i (h.2 i) hc (hn i) hi hs) hs
        exact ⟨fun _ => hb, hrun⟩

/-! ### The words that fit a pattern -/

/-- Listing by a pattern, from `level` on, accesses nothing outside. -/
def RegexBounded (safe : Nat → Prop) (regex : TrieRegex) : Tree → Nat → Prop
  | nil, _ => True
  | node _ leaf kids, level =>
      (level = regex.wordLen.toNat → leaf = true → safe level) ∧
      (level ≠ regex.wordLen.toNat → ∀ i, kids i ≠ nil → level < maxWordLen ∧
        ∀ r, Trie.letterRegex regex level = some r → accepts r i = true →
          RegexBounded safe regex (kids i) (level + 1))

theorem safe_letterRegex (hl : level < maxWordLen) : Safe (letterRegex regex level) :=
  within_access_bind.mpr ⟨hl, within_lift _⟩

/-- The round of the loop for a child, with what is done where its letter fits. -/
def regexRound (r : LetterRegex) (i : Fin childrenNo) (s : Buffer × σ)
    (call : Traced Access (Bool × Buffer × σ)) : Traced Access (Bool × Buffer × σ) :=
  match r.opt with
  | .valInList => if maskHas r.mask i then call else pure (false, s)
  | .valNotInList => if !maskHas r.mask i then call else pure (false, s)
  | .other => lift none

theorem regexRound_accepts {r : LetterRegex} {i : Fin childrenNo} (h : accepts r i = true)
    (s : Buffer × σ) (call : Traced Access (Bool × Buffer × σ)) : regexRound r i s call = call := by
  rw [accepts] at h
  rw [regexRound]
  cases ho : r.opt with
  | other => rw [ho] at h; exact Bool.noConfusion h
  | valInList => rw [ho] at h; exact if_pos h
  | valNotInList => rw [ho] at h; exact if_pos h

/-- Where the letter does not fit nothing is done, or the option is invalid. -/
theorem regexRound_rejects {r : LetterRegex} {i : Fin childrenNo} (h : ¬ accepts r i = true)
    (s : Buffer × σ) (call : Traced Access (Bool × Buffer × σ)) :
    regexRound r i s call = if r.opt = .other then lift none else pure (false, s) := by
  rw [accepts] at h
  rw [regexRound]
  cases ho : r.opt with
  | other => rfl
  | valInList => rw [ho] at h; exact if_neg h
  | valNotInList => rw [ho] at h; exact if_neg h

theorem recursiveRegex_succ (emit : Emit σ) (n : Nat) (p : Ptr) (level : Nat) (s : Buffer × σ) :
    recursiveRegex emit m regex (n + 1) p level s =
      (if level = regex.wordLen.toNat then do
        let node ← lift (m.load p)
        if node.isLeaf then emit s.1 level s.2 else pure (false, s)
      else do
        let node ← lift (m.load p)
        eachChild (fun i s =>
          if (node.children i).isNone then pure (false, s)
          else do
            let r ← letterRegex regex level
            regexRound r i s (do
              let word ← putChar s.1 level (letter i)
              recursiveRegex emit m regex n (node.children i) (level + 1) (word, s.2)))
          (List.finRange childrenNo) s) := rfl

theorem recursiveRegex_within (he : Emits emit safe J) (h : Holds m t)
    (hb : RegexBounded safe regex t level) (n : Nat) (s : Buffer × σ) :
    Safe (recursiveRegex emit m regex n t.ptr level s) := by
  induction t generalizing n level s with
  | nil =>
    cases n with
    | zero => exact within_lift _
    | succ n =>
      rw [recursiveRegex_succ]
      split
      · refine within_bind.mpr ⟨within_lift _, fun node hn => ?_⟩
        cases hn
      · refine within_bind.mpr ⟨within_lift _, fun node hn => ?_⟩
        cases hn
  | node a leaf kids ih =>
    cases n with
    | zero => exact within_lift _
    | succ n =>
      rw [recursiveRegex_succ]
      by_cases hl : level = regex.wordLen.toNat
      · rw [if_pos hl]
        exact (within_lift_bind h.load).mpr (he.safe_leaf (hb.1 hl))
      · rw [if_neg hl]
        refine (within_lift_bind h.load).mpr (safe_eachChild (fun i s => ?_) _ s)
        by_cases hc : kids i = nil
        · rw [if_pos (isNone_ptr.mpr hc)]
          exact within_pure _
        · obtain ⟨hlt, hb'⟩ := hb.2 hl i hc
          rw [if_neg (not_isNone_ptr.mpr hc)]
          refine within_bind.mpr ⟨safe_letterRegex hlt, fun r hr => ?_⟩
          rw [result_letterRegex] at hr
          by_cases ha : accepts r i = true
          · rw [regexRound_accepts ha]
            exact safe_putChar_bind hlt (fun word => ih i (h.2 i) (hb' r hr ha) n _)
          · rw [regexRound_rejects ha]
            split
            · exact within_lift _
            · exact within_pure _

/-- No position of the pattern has an invalid option. -/
def Options (regex : TrieRegex) : Prop :=
  ∀ i r, i < regex.wordLen.toNat → Trie.letterRegex regex i = some r → r.opt ≠ .other

theorem recursiveRegex_run (he : Emits emit safe J) (hopt : Options regex) (h : Holds m t) (ht : t ≠ nil)
    (hn : t.Deep n) (hw : w.length ≤ regex.wordLen.toNat) {s : Buffer × σ} (hi : Inv J w s)
    (hs : Safe (recursiveRegex emit m regex n t.ptr w.length s)) :
    RegexBounded safe regex t w.length ∧
      ∃ s', (recursiveRegex emit m regex n t.ptr w.length s).result = some (false, s') ∧ Inv J w s' := by
  induction t generalizing n w s with
  | nil => exact absurd rfl ht
  | node a leaf kids ih =>
    cases n with
    | zero => exact absurd hn id
    | succ n =>
      rw [ptr_node, recursiveRegex_succ] at hs ⊢
      by_cases hl : w.length = regex.wordLen.toNat
      · rw [if_pos hl] at hs ⊢
        rw [result_bind, result_lift, h.load, Option.bind_some]
        obtain ⟨hleaf, hrun⟩ := he.leaf hi ((within_lift_bind h.load).mp hs)
        exact ⟨⟨fun _ => hleaf, fun hne => absurd hl hne⟩, hrun⟩
      · rw [if_neg hl] at hs ⊢
        rw [result_bind, result_lift, h.load, Option.bind_some]
        replace hs := (within_lift_bind h.load).mp hs
        refine (eachChild_run (Inv J w)
          (fun i => kids i ≠ nil → w.length < maxWordLen ∧ ∀ r,
            Trie.letterRegex regex w.length = some r → accepts r i = true →
              RegexBounded safe regex (kids i) (w.length + 1))
          (fun i s hi hs => ?_) _ s hi hs).imp_left
            (fun hkids => ⟨fun he => absurd he hl, fun _ i => hkids i (List.mem_finRange i)⟩)
        by_cases hc : kids i = nil
        · rw [if_pos (isNone_ptr.mpr hc)]
          exact ⟨fun hne => absurd hc hne, s, rfl, hi⟩
        · rw [if_neg (not_isNone_ptr.mpr hc)] at hs ⊢
          obtain ⟨hread, hrest⟩ := within_bind.mp hs
          have hlt : w.length < maxWordLen := (within_access_bind.mp hread).1
          obtain ⟨r, hr⟩ : ∃ r, Trie.letterRegex regex w.length = some r := ⟨_, dif_pos hlt⟩
          have hr' : (letterRegex regex w.length).result = some r := by rw [result_letterRegex, hr]
          have hround := hrest r hr'
          rw [result_bind, hr', Option.bind_some]
          by_cases ha : accepts r i = true
          · rw [regexRound_accepts ha] at hround ⊢
            have hlen : (w ++ [i]).length = w.length + 1 := List.length_append
            rw [← hlen] at hround ⊢
            obtain ⟨⟨-, hb⟩, hrun⟩ := run_child hi i
              (fun s hi hs => ih i (h.2 i) hc (hn i) (by omega) hi hs) hround
            refine ⟨fun _ => ⟨hlt, fun r₁ _ _ => hb⟩, hrun⟩
          · have hvalid : ¬ r.opt = .other := hopt _ r (by omega) hr
            rw [regexRound_rejects ha, if_neg hvalid]
            refine ⟨fun _ => ⟨hlt, fun r₁ hr₁ ha₁ => ?_⟩, s, rfl, hi⟩
            rw [hr, Option.some.injEq] at hr₁
            exact absurd (hr₁ ▸ ha₁) ha

/-- With an invalid option no call gets past its position. -/
theorem regexBounded_of_invalid {k : Nat} {r : LetterRegex} (hk : k < regex.wordLen.toNat)
    (hr : Trie.letterRegex regex k = some r) (hopt : r.opt = .other) (hl : level ≤ k) :
    RegexBounded safe regex t level := by
  have hk128 : k < maxWordLen := by
    by_contra hno
    rw [Trie.letterRegex, dif_neg hno] at hr
    cases hr
  induction t generalizing level with
  | nil => exact trivial
  | node a leaf kids ih =>
    refine ⟨fun he => by omega, fun _ i _ => ⟨by omega, fun r₁ hr₁ ha => ih i ?_⟩⟩
    have hne : level ≠ k := by
      rintro rfl
      rw [hr, Option.some.injEq] at hr₁
      rw [← hr₁, accepts, hopt] at ha
      exact Bool.noConfusion ha
    omega

end DataStructures.Trie.Accesses
