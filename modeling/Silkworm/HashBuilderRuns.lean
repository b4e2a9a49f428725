import Silkworm.HashBuilderCorrectness

/-!
# Runs of the hash builder

Feeding the entries of a finite map in the order of their keys and asking for the root hash
gives the root of the trie of the map.
-/

namespace Silkworm.Trie
open EntriesUnderPrefix Rlp

theorem nibbles_cons (b : UInt8) (s : Bytes) : nibbles (b :: s) = unpackNibble b ++ nibbles s := rfl

theorem nibbles_ne_nil {key : Bytes} (h : key ≠ []) : nibbles key ≠ [] := by
  cases key with
  | nil => exact absurd rfl h
  | cons b s => simp [nibbles_cons, unpackNibble]

theorem Before.append_left (p : List Nibble) {a b : List Nibble} (h : Before a b) :
    Before (p ++ a) (p ++ b) := by
  obtain ⟨q, x, y, s, t, rfl, rfl, hxy⟩ := h
  exact ⟨p ++ q, x, y, s, t, by simp, by simp, hxy⟩

private theorem before_unpackNibble {b c : UInt8} (h : b < c) (s t : List Nibble) :
    Before (unpackNibble b ++ s) (unpackNibble c ++ t) := by
  have hlt : b.toNat < c.toNat := h
  by_cases hhi : b.toNat / 16 = c.toNat / 16
  · refine ⟨[⟨b.toNat / 16, by have := b.toNat_lt; omega⟩], ⟨b.toNat % 16, by omega⟩,
      ⟨c.toNat % 16, by omega⟩, s, t, rfl, ?_, ?_⟩
    · simp only [unpackNibble, ← hhi]
      rfl
    · rw [Fin.mk_lt_mk]
      omega
  · refine ⟨[], ⟨b.toNat / 16, by have := b.toNat_lt; omega⟩,
      ⟨c.toNat / 16, by have := c.toNat_lt; omega⟩, _, _, rfl, rfl, ?_⟩
    rw [Fin.mk_lt_mk]
    omega

/-- Nibble strings part where the byte strings do. -/
theorem before_nibbles {a b : Bytes} (hlt : a < b) (hfree : ¬a <+: b) :
    Before (nibbles a) (nibbles b) := by
  induction a generalizing b with
  | nil => exact absurd List.nil_prefix hfree
  | cons c s ih =>
    cases b with
    | nil => exact absurd hlt (by simp)
    | cons d t =>
      rw [nibbles_cons, nibbles_cons]
      rcases List.cons_lt_cons_iff.mp hlt with h | ⟨rfl, h⟩
      · exact before_unpackNibble h _ _
      · exact (ih h fun h' => hfree (List.cons_prefix_cons.mpr ⟨rfl, h'⟩)).append_left _

theorem Before.lt {a b : List Nibble} (h : Before a b) : a < b := by
  obtain ⟨p, x, y, s, t, rfl, rfl, hxy⟩ := h
  induction p with
  | nil => exact List.cons_lt_cons_iff.mpr (.inl hxy)
  | cons c p ih => exact List.cons_lt_cons_iff.mpr (.inr ⟨rfl, ih⟩)

section Runs

variable (keccak : Bytes → Bytes32)

/-- Between calls of `add`: the last entry is kept back, those before it are on the spine. -/
structure Pending (prev : List Entry) (cur : List Nibble) (val : Bytes) (hb : HashBuilder) :
    Prop where
  key : hb.key = cur
  value : hb.value = val
  nonempty : cur ≠ []
  before : ∀ e ∈ prev, Before e.1 cur
  openAt : OpenAt keccak prev cur val cur.length false hb

variable {keccak}

private theorem spine_nil (cur : List Nibble) (n : ℕ) : spine keccak [] cur n = [] := by
  induction n with
  | zero => rfl
  | succ n ih => simp [spine, siblingRefs, siblings, under, ih]

theorem OpenAt.key_value {prev : List Entry} {cur : List Nibble} {val : Bytes} {n : ℕ}
    {hb : HashBuilder} (h : OpenAt keccak prev cur val n false hb) (key : List Nibble)
    (value : Bytes) : OpenAt keccak prev cur val n false { hb with key, value } :=
  ⟨h.groups, ⟨h.idle.nodeCollector, h.idle.length_eq, h.idle.hashMasks⟩, h.le, h.first, h.later⟩

/-- The first `add` on a fresh builder. -/
theorem add_first (keccak : Bytes → Bytes32) {key : Bytes} (value : Bytes) (hne : key ≠ []) :
    ∃ hb, add keccak key value {} = some hb ∧ Pending keccak [] (nibbles key) value hb := by
  have hgt : unpackNibbles key > [] := by
    rw [unpackNibbles_eq]
    obtain ⟨d, k, hk⟩ := List.exists_cons_of_ne_nil (nibbles_ne_nil hne)
    rw [hk]
    exact List.nil_lt_cons d k
  refine ⟨{ key := unpackNibbles key, value }, by simp [add, hgt], ?_⟩
  refine ⟨unpackNibbles_eq key, rfl, nibbles_ne_nil hne, by simp, ?_⟩
  refine ⟨⟨fun l _ d => ?_, Nat.zero_le _, fun h => absurd rfl h⟩, ⟨rfl, rfl, by simp⟩, le_rfl,
    fun _ => ⟨rfl, (spine_nil _ _).symm⟩, fun h => absurd h (by simp)⟩
  rw [mem_siblings, List.getD_nil, has_zero]
  simp [under]

theorem add_next {prev : List Entry} {cur : List Nibble} {val key : Bytes} {hb : HashBuilder}
    (h : Pending keccak prev cur val hb) (value : Bytes) (hne : key ≠ [])
    (hb' : ∀ e ∈ prev ++ [(cur, val)], Before e.1 (nibbles key)) :
    ∃ hb'', add keccak key value hb = some hb'' ∧
      Pending keccak (prev ++ [(cur, val)]) (nibbles key) value hb'' := by
  have hcur : Before cur (nibbles key) := hb' (cur, val) (by simp)
  have hgt : unpackNibbles key > hb.key := by
    rw [unpackNibbles_eq, h.key]
    exact hcur.lt
  obtain ⟨p, x, y, s, t, hx, hy, hxy⟩ := hcur
  have hopen := h.openAt
  have hprev := h.before
  rw [hx] at hopen hprev
  obtain ⟨hb₁, hrun, hnext⟩ := genStructStep_succ (b := t) hprev hxy value hopen (by simp)
  rw [← hx, ← hy, List.take_length] at hrun
  refine ⟨{ hb₁ with key := unpackNibbles key, value }, ?_, unpackNibbles_eq key, rfl,
    nibbles_ne_nil hne, hb', ?_⟩
  · have hkey : hb.key ≠ [] := h.key ▸ h.nonempty
    simp only [add, hgt, not_true_eq_false, ↓reduceIte, hkey, ne_eq, not_false_eq_true]
    rw [h.key, h.value, unpackNibbles_eq, hrun]
    rfl
  · rw [hx, hy]
    exact hnext.key_value _ _

def toEntry (e : Bytes × Bytes) : Entry := (nibbles e.1, e.2)

/-- The run of `add` over the remaining entries. -/
theorem addAll_run {rest : List (Bytes × Bytes)} {prev : List Entry} {cur : List Nibble}
    {val : Bytes} {hb : HashBuilder} (h : Pending keccak prev cur val hb)
    (hne : ∀ e ∈ rest, e.1 ≠ [])
    (hsorted : (prev ++ [(cur, val)] ++ rest.map toEntry).Pairwise fun a b => Before a.1 b.1) :
    ∃ hb' prev' cur' val', addAll keccak rest hb = some hb' ∧ Pending keccak prev' cur' val' hb' ∧
      prev' ++ [(cur', val')] = prev ++ [(cur, val)] ++ rest.map toEntry := by
  induction rest generalizing prev cur val hb with
  | nil => exact ⟨hb, prev, cur, val, rfl, h, by simp⟩
  | cons e rest ih =>
    obtain ⟨hne_e, hne_rest⟩ := List.forall_mem_cons.mp hne
    have hbefore : ∀ e' ∈ prev ++ [(cur, val)], Before e'.1 (nibbles e.1) := fun e' he' =>
      (List.pairwise_append.mp hsorted).2.2 e' he' (toEntry e) (by simp)
    obtain ⟨hb₁, hadd, h₁⟩ := add_next h e.2 hne_e hbefore
    have happ : prev ++ [(cur, val)] ++ (e :: rest).map toEntry =
        (prev ++ [(cur, val)]) ++ [(nibbles e.1, e.2)] ++ rest.map toEntry := by
      simp [toEntry]
    rw [happ] at hsorted ⊢
    obtain ⟨hb₂, prev', cur', val', hrun, h₂, heq⟩ := ih h₁ hne_rest hsorted
    refine ⟨hb₂, prev', cur', val', ?_, h₂, heq⟩
    rw [addAll, List.foldlM_cons, hadd]
    exact hrun

theorem rootHash_pending {prev : List Entry} {cur : List Nibble} {val : Bytes} {hb : HashBuilder}
    (h : Pending keccak prev cur val hb) :
    ∃ hb', rootHash keccak hb = some (keccak (trieNode keccak (prev ++ [(cur, val)])), hb') := by
  have hpos := List.length_pos_of_ne_nil h.nonempty
  obtain ⟨hb₁, hrun, hstack⟩ := genStructStep_last h.before h.openAt hpos
  rw [List.take_length] at hrun
  refine ⟨{ hb₁ with key := [], value := [] }, ?_⟩
  simp only [rootHash, finalize, h.nonempty, ne_eq, not_false_eq_true, ↓reduceIte, h.key, h.value, hrun,
    Option.map_some, Option.bind_eq_bind, Option.bind_some, hstack, rootHashOfStack_reference]

theorem pairwise_before {l : List (Bytes × Bytes)}
    (hfree : ∀ a ∈ l, ∀ b ∈ l, a.1 <+: b.1 → a = b) (hsorted : l.Pairwise fun a b => a.1 < b.1) :
    (l.map toEntry).Pairwise fun a b => Before a.1 b.1 := by
  rw [List.pairwise_map]
  refine hsorted.imp_of_mem fun {a b} ha hb hlt => before_nibbles hlt fun hpre => ?_
  have := hfree a ha b hb hpre
  rw [this] at hlt
  exact List.lt_irrefl _ hlt

/-- A whole run: every entry in order, then the root hash. -/
theorem addAll_rootHash (keccak : Bytes → Bytes32) {l : List (Bytes × Bytes)}
    (hne : ∀ e ∈ l, e.1 ≠ []) (hfree : ∀ a ∈ l, ∀ b ∈ l, a.1 <+: b.1 → a = b)
    (hsorted : l.Pairwise fun a b => a.1 < b.1) :
    ∃ hb hb', addAll keccak l {} = some hb ∧ rootHash keccak hb = some (trieRoot keccak l, hb') := by
  cases l with
  | nil => exact ⟨{}, {}, rfl, rfl⟩
  | cons e rest =>
    obtain ⟨hne_e, hne_rest⟩ := List.forall_mem_cons.mp hne
    obtain ⟨hb₁, hadd, h₁⟩ := add_first keccak e.2 hne_e
    obtain ⟨hb₂, prev, cur, val, hrun, h₂, heq⟩ :=
      addAll_run h₁ hne_rest (pairwise_before hfree hsorted)
    obtain ⟨hb₃, hroot⟩ := rootHash_pending h₂
    refine ⟨hb₂, hb₃, ?_, ?_⟩
    · rw [addAll, List.foldlM_cons, hadd]
      exact hrun
    · rw [hroot, heq, trieRoot, if_neg (List.cons_ne_nil e rest)]
      rfl

/-- Of keys of one length, none is a prefix of another. -/
theorem prefixFree_of_length {l : List (Bytes × Bytes)} {n : ℕ} (hlen : ∀ e ∈ l, e.1.length = n)
    (hsorted : l.Pairwise fun a b => a.1 < b.1) : ∀ a ∈ l, ∀ b ∈ l, a.1 <+: b.1 → a = b := by
  intro a ha b hb hpre
  have hkey := hpre.eq_of_length ((hlen a ha).trans (hlen b hb).symm)
  have hnodup : (l.map Prod.fst).Nodup := by
    refine List.pairwise_map.mpr (hsorted.imp fun {a b} hlt heq => ?_)
    rw [heq] at hlt
    exact List.lt_irrefl _ hlt
  exact List.inj_on_of_nodup_map hnodup ha hb hkey

theorem ne_nil_of_length {l : List (Bytes × Bytes)} {n : ℕ} (hn : n ≠ 0)
    (hlen : ∀ e ∈ l, e.1.length = n) : ∀ e ∈ l, e.1 ≠ [] := by
  intro e he h0
  apply hn
  rw [← hlen e he, h0]
  rfl

theorem addAll_rootHash_of_length (keccak : Bytes → Bytes32) {l : List (Bytes × Bytes)} {n : ℕ}
    (hn : n ≠ 0) (hlen : ∀ e ∈ l, e.1.length = n) (hsorted : l.Pairwise fun a b => a.1 < b.1) :
    ∃ hb hb', addAll keccak l {} = some hb ∧ rootHash keccak hb = some (trieRoot keccak l, hb') :=
  addAll_rootHash keccak (ne_nil_of_length hn hlen) (prefixFree_of_length hlen hsorted) hsorted

/-- The hash builder returns the root of the trie of the entries, however these are listed,
and no index is ever out of range. -/
theorem rootHash_addAll (keccak : Bytes → Bytes32) {l J : List (Bytes × Bytes)} (hperm : l.Perm J)
    (hne : ∀ e ∈ J, e.1 ≠ []) (hfree : ∀ a ∈ J, ∀ b ∈ J, a.1 <+: b.1 → a = b)
    (hsorted : l.Pairwise fun a b => a.1 < b.1) :
    ∃ hb hb', addAll keccak l {} = some hb ∧ rootHash keccak hb = some (trieRoot keccak J, hb') := by
  rw [← trieRoot_perm hperm]
  refine addAll_rootHash keccak (fun e he => hne e (hperm.mem_iff.mp he)) (fun a ha b hb => ?_) hsorted
  exact hfree a (hperm.mem_iff.mp ha) b (hperm.mem_iff.mp hb)

/-- The entries "do" and "good", listed in reverse. -/
theorem rootHash_addAll_do_good :
    ∃ hb hb', addAll (fun _ => default) [([0x64, 0x6f], [1]), ([0x67, 0x6f, 0x6f, 0x64], [2])] {} =
        some hb ∧
      rootHash (fun _ => default) hb =
        some (trieRoot (fun _ => default) [([0x67, 0x6f, 0x6f, 0x64], [2]), ([0x64, 0x6f], [1])],
          hb') :=
  rootHash_addAll (fun _ => default) (.swap _ _ _) (by decide) (by decide) (by decide)

end Runs

end Silkworm.Trie
