import Silkworm.SenderRecovery

/-!
# Batches of whole blocks

What a segment of the canonical chain is, what the collector should receive of it, and what a
worker returns for a batch that consists of whole blocks.
-/

namespace Silkworm.Senders
open Db SortedTables

/-- The order of the keys of the bodies. -/
def StoredBlock.Before (b b' : StoredBlock) : Prop :=
  b.number < b'.number ∨ b.number = b'.number ∧ b.hash.val < b'.hash.val

instance (b b' : StoredBlock) : Decidable (b.Before b') :=
  inferInstanceAs (Decidable (b.number < b'.number ∨ b.number = b'.number ∧ b.hash.val < b'.hash.val))

section Blocks

variable (c : Crypto)

def senderOf (number : Uint64) (txn : Transaction) : Option Address :=
  (package c number txn).bind (sender c)

/-- All signatures of a block recover. -/
def Recovers (b : StoredBlock) : Prop :=
  ∀ txn ∈ b.transactions, ∃ a, senderOf c b.number txn = some a

/-- All transactions of a block are packed. -/
def Packed (b : StoredBlock) : Prop := ∀ txn ∈ b.transactions, ∃ p, package c b.number txn = some p

/-- The senders of a block, one after the other. -/
def senders (b : StoredBlock) : Bytes :=
  b.transactions.flatMap fun txn => ((senderOf c b.number txn).map Subtype.val).getD []

/-- What the collector should receive for a block. -/
def entry (b : StoredBlock) : Entry := (blockKey b.number ++ b.hash.val, senders c b)

def nonEmpty (segment : List StoredBlock) : List StoredBlock :=
  segment.filter fun b => !b.transactions.isEmpty

def packages (b : StoredBlock) : List Package := b.transactions.filterMap (package c b.number)

/-- What a worker returns for a block. -/
def result (b : StoredBlock) : Uint64 × Bytes := (b.number, senders c b)

/-- The blocks of a batch. -/
structure Batchable (bs : List StoredBlock) : Prop where
  packed : ∀ b ∈ bs, Packed c b
  transactions : ∀ b ∈ bs, b.transactions ≠ []
  numbers : bs.Pairwise fun b b' => b.number ≠ b'.number

variable {c} {b : StoredBlock} {bs : List StoredBlock}

theorem Batchable.sublist {bs' : List StoredBlock} (h : Batchable c bs) (hsub : bs'.Sublist bs) :
    Batchable c bs' where
  packed b hb := h.packed b (hsub.subset hb)
  transactions b hb := h.transactions b (hsub.subset hb)
  numbers := h.numbers.sublist hsub

theorem mem_nonEmpty {segment : List StoredBlock} :
    b ∈ nonEmpty segment ↔ b ∈ segment ∧ b.transactions ≠ [] := by
  rw [nonEmpty, List.mem_filter]
  simp

/-- The packages of a block, each with the sender that it yields. -/
theorem package_of_recovers (h : Recovers c b) {txn : Transaction} (ht : txn ∈ b.transactions) :
    ∃ p a, package c b.number txn = some p ∧ sender c p = some a := by
  obtain ⟨a, ha⟩ := h txn ht
  obtain ⟨p, hp, hs⟩ := Option.bind_eq_some_iff.mp ha
  exact ⟨p, a, hp, hs⟩

theorem blockNum_package {number : Uint64} {txn : Transaction} {p : Package}
    (h : package c number txn = some p) : p.blockNum = number := by
  rw [package] at h
  cases hid : txn.chainId with
  | none =>
    rw [hid] at h
    dsimp only at h
    split_ifs at h
    cases h
    rfl
  | some chainId =>
    rw [hid] at h
    dsimp only at h
    split_ifs at h
    cases h
    rfl

theorem Recovers.packed (h : Recovers c b) : Packed c b := fun _ ht =>
  let ⟨p, _, hp, _⟩ := package_of_recovers h ht
  ⟨p, hp⟩

theorem fillBatch_of_packed (h : Packed c b) :
    fillBatch c b.number b.transactions = some (packages c b) ∧
      (packages c b).length = b.transactions.length := by
  have hall (txns : List Transaction) (ht : ∀ txn ∈ txns, ∃ p, package c b.number txn = some p) :
      txns.mapM (package c b.number) = some (txns.filterMap (package c b.number)) ∧
        (txns.filterMap (package c b.number)).length = txns.length := by
    induction txns with
    | nil => exact ⟨rfl, rfl⟩
    | cons txn txns ih =>
      obtain ⟨⟨p, hp⟩, htxns⟩ := List.forall_mem_cons.mp ht
      obtain ⟨hmap, hlen⟩ := ih htxns
      rw [List.mapM_cons, hp, hmap, List.filterMap_cons_some hp, List.length_cons, hlen]
      exact ⟨rfl, rfl⟩
  exact hall b.transactions h

/-- A block whose transactions are not all packed stops the farm. -/
theorem packed_of_fillBatch {ps : List Package}
    (h : fillBatch c b.number b.transactions = some ps) : Packed c b := by
  have hall (txns : List Transaction) (ps : List Package)
      (h : txns.mapM (package c b.number) = some ps) :
      ∀ txn ∈ txns, ∃ p, package c b.number txn = some p := by
    induction txns generalizing ps with
    | nil => simp
    | cons txn txns ih =>
      rw [List.mapM_cons] at h
      obtain ⟨p, hp, h⟩ := Option.bind_eq_some_iff.mp h
      obtain ⟨ps', hps, -⟩ := Option.bind_eq_some_iff.mp h
      exact List.forall_mem_cons.mpr ⟨⟨p, hp⟩, ih ps' hps⟩
  exact hall b.transactions ps h

theorem mem_packages {p : Package} :
    p ∈ packages c b ↔ ∃ txn ∈ b.transactions, package c b.number txn = some p := by
  rw [packages, List.mem_filterMap]

/-- The signatures of a packed block recover if its packages do. -/
theorem Packed.recovers (h : Packed c b) (hp : ∀ p ∈ packages c b, ∃ a, sender c p = some a) :
    Recovers c b := by
  intro txn ht
  obtain ⟨p, htxn⟩ := h txn ht
  obtain ⟨a, ha⟩ := hp p (mem_packages.mpr ⟨txn, ht, htxn⟩)
  exact ⟨a, by rw [senderOf, htxn, Option.bind_some, ha]⟩

end Blocks

section Workers

variable {c : Crypto} {b : StoredBlock} {n : Uint64} {current : Bytes}
  {results : List (Uint64 × Bytes)}

/-- The rest of the block at which a worker is. -/
theorem recoverBatch_block {txns : List Transaction}
    (h : ∀ txn ∈ txns, ∃ a, senderOf c n txn = some a) (rest : List Package) :
    recoverBatch c n current results (txns.filterMap (package c n) ++ rest) =
      recoverBatch c n
        (current ++ txns.flatMap fun txn => ((senderOf c n txn).map Subtype.val).getD [])
        results rest := by
  induction txns generalizing current with
  | nil => simp
  | cons txn txns ih =>
    obtain ⟨⟨a, ha⟩, htxns⟩ := List.forall_mem_cons.mp h
    obtain ⟨p, hp, hs⟩ := Option.bind_eq_some_iff.mp ha
    have hn : n = p.blockNum := (blockNum_package hp).symm
    rw [List.filterMap_cons_some hp, List.cons_append, recoverBatch]
    simp only [hs, ← hn, ne_eq, not_true_eq_false, ↓reduceIte]
    rw [ih htxns, List.flatMap_cons, ha, List.append_assoc]
    rfl

/-- A block that follows another one. -/
theorem recoverBatch_next (hb : Recovers c b) (ht : b.transactions ≠ []) (hn : n ≠ b.number)
    (rest : List Package) :
    recoverBatch c n current results (packages c b ++ rest) =
      recoverBatch c b.number (senders c b) (results ++ [(n, current)]) rest := by
  obtain ⟨txn, txns, htxns⟩ := List.exists_cons_of_ne_nil ht
  obtain ⟨p, a, hp, hs⟩ := package_of_recovers hb (htxns ▸ List.mem_cons_self)
  have hnum : p.blockNum = b.number := blockNum_package hp
  have ha : senderOf c b.number txn = some a := by rw [senderOf, hp, Option.bind_some, hs]
  have hrest : ∀ txn ∈ txns, ∃ a, senderOf c b.number txn = some a := fun txn h =>
    hb txn (htxns ▸ List.mem_cons_of_mem _ h)
  rw [packages, htxns, List.filterMap_cons_some hp, List.cons_append, recoverBatch]
  simp only [hs, hnum, hn, ne_eq, not_false_eq_true, ↓reduceIte]
  rw [recoverBatch_block hrest, senders, htxns, List.flatMap_cons, ha]
  rfl

theorem senders_ne_nil (hb : Recovers c b) (ht : b.transactions ≠ []) : senders c b ≠ [] := by
  obtain ⟨txn, txns, htxns⟩ := List.exists_cons_of_ne_nil ht
  obtain ⟨a, ha⟩ := hb txn (htxns ▸ List.mem_cons_self)
  rw [senders, htxns, List.flatMap_cons, ha]
  intro hnil
  have hlen := congrArg List.length (List.append_eq_nil_iff.mp hnil).1
  have ha20 : a.val.length = kAddressLength := a.property
  simp only [Option.map_some, Option.getD_some, List.length_nil] at hlen
  rw [ha20] at hlen
  cases hlen

theorem recoverBatch_blocks {bs : List StoredBlock} (h : Batchable c bs)
    (hrec : ∀ b ∈ bs, Recovers c b) (hn : ∀ b ∈ bs, n ≠ b.number) (hc : current ≠ []) :
    recoverBatch c n current results (bs.flatMap (packages c)) =
      (results ++ (n, current) :: bs.map (result c), .resultsReady) := by
  induction bs generalizing n current results with
  | nil => simp [recoverBatch, hc]
  | cons b bs ih =>
    obtain ⟨hb, hrest⟩ := List.forall_mem_cons.mp hrec
    have ht := h.transactions b List.mem_cons_self
    have hnext : ∀ b' ∈ bs, b.number ≠ b'.number := (List.pairwise_cons.mp h.numbers).1
    rw [List.flatMap_cons, recoverBatch_next hb ht (hn b List.mem_cons_self),
      ih (h.sublist (List.sublist_cons_self b bs)) hrest hnext (senders_ne_nil hb ht)]
    simp [result]

/-- A batch of blocks has a first package, which belongs to the first block. -/
theorem Batchable.packages_eq_cons {bs : List StoredBlock} (h : Batchable c (b :: bs)) :
    ∃ p ps, (b :: bs).flatMap (packages c) = p :: ps ∧ p.blockNum = b.number := by
  obtain ⟨txn, txns, htxns⟩ := List.exists_cons_of_ne_nil (h.transactions b List.mem_cons_self)
  obtain ⟨p, hp⟩ := h.packed b List.mem_cons_self txn (htxns ▸ List.mem_cons_self)
  refine ⟨p, txns.filterMap (package c b.number) ++ bs.flatMap (packages c), ?_, blockNum_package hp⟩
  rw [List.flatMap_cons, packages, htxns, List.filterMap_cons_some hp]
  rfl

/-- A worker returns the senders of the blocks of its batch. -/
theorem recoverBatch_batch {bs : List StoredBlock} (h : Batchable c bs)
    (hrec : ∀ b ∈ bs, Recovers c b) (hne : bs ≠ []) {p : Package} {ps : List Package}
    (hcons : bs.flatMap (packages c) = p :: ps) :
    recoverBatch c p.blockNum [] [] (p :: ps) = (bs.map (result c), .resultsReady) := by
  obtain ⟨b, bs, rfl⟩ := List.exists_cons_of_ne_nil hne
  obtain ⟨hb, hrest⟩ := List.forall_mem_cons.mp hrec
  have ht := h.transactions b List.mem_cons_self
  have hnext : ∀ b' ∈ bs, b.number ≠ b'.number := (List.pairwise_cons.mp h.numbers).1
  have hall : recoverBatch c b.number [] [] ((b :: bs).flatMap (packages c)) =
      ((b :: bs).map (result c), .resultsReady) := by
    rw [List.flatMap_cons, packages, recoverBatch_block hb,
      recoverBatch_blocks (h.sublist (List.sublist_cons_self b bs)) hrest hnext]
    · rfl
    · exact senders_ne_nil hb ht
  obtain ⟨p', ps', hcons', hnum⟩ := h.packages_eq_cons
  rw [hcons] at hcons' hall
  cases hcons'
  rw [hnum]
  exact hall

/-- The status of a worker behind its batch tells whether all packages recovered. -/
theorem recoverBatch_status (ps : List Package) :
    (∀ p ∈ ps, ∃ a, sender c p = some a) ∧
        (recoverBatch c n current results ps).2 = .resultsReady ∨
      (∃ p ∈ ps, sender c p = none) ∧ (recoverBatch c n current results ps).2 = .error := by
  induction ps generalizing n current results with
  | nil => exact .inl ⟨by simp, rfl⟩
  | cons p ps ih =>
    rw [recoverBatch]
    cases hs : sender c p with
    | none => exact .inr ⟨⟨p, List.mem_cons_self, hs⟩, rfl⟩
    | some a =>
      refine ih.imp (fun h => ⟨?_, h.2⟩) fun h => ⟨?_, h.2⟩
      · exact List.forall_mem_cons.mpr ⟨⟨a, hs⟩, h.1⟩
      · obtain ⟨p', hp', hs'⟩ := h.1
        exact ⟨p', List.mem_cons_of_mem _ hp', hs'⟩

/-- A batch that does not recover makes a worker fail. -/
theorem recoverBatch_error {bs : List StoredBlock} (h : Batchable c bs)
    (hrec : ¬∀ b ∈ bs, Recovers c b) :
    (recoverBatch c n current results (bs.flatMap (packages c))).2 = .error := by
  refine (recoverBatch_status _).elim (fun hall => absurd (fun b hb => ?_) hrec) And.right
  exact (h.packed b hb).recovers fun p hp => hall.1 p (List.mem_flatMap.mpr ⟨b, hb, hp⟩)

end Workers

section Segments

/-- A segment of the canonical chain, whose hashes and bodies are in the tables. The genesis is not
among its blocks. -/
structure CanonicalSegment (hashes : List (Uint64 × Bytes32)) (bodies : List StoredBlock)
    (segment : List StoredBlock) : Prop where
  positive : ∀ b ∈ segment, 0 < b.number
  hashesSorted : hashes.Pairwise fun row row' => row.1 < row'.1
  bodiesSorted : bodies.Pairwise StoredBlock.Before
  consecutive : segment.IsChain fun b b' => b'.number.toNat = b.number.toNat + 1
  hash_mem : ∀ b ∈ segment, (b.number, b.hash) ∈ hashes
  body_mem : ∀ b ∈ segment, b ∈ bodies

/-- The rows from the body of the next block on: it is found if all rows in front of it are passed. -/
inductive Reads : List StoredBlock → List StoredBlock → Prop
  | nil (rows : List StoredBlock) : Reads [] rows
  | skip {b row : StoredBlock} {bs rows : List StoredBlock}
      (h : row.number < b.number ∨ row.number = b.number ∧ row.hash ≠ b.hash)
      (tail : Reads (b :: bs) rows) : Reads (b :: bs) (row :: rows)
  | block {b : StoredBlock} {bs rows : List StoredBlock} (tail : Reads bs rows) :
      Reads (b :: bs) (b :: rows)

variable {hashes : List (Uint64 × Bytes32)} {rows segment : List StoredBlock}

theorem lt_of_consecutive {b : StoredBlock} {bs : List StoredBlock}
    (h : (b :: bs).IsChain fun b b' => b'.number.toNat = b.number.toNat + 1) :
    ∀ b' ∈ bs, b.number < b'.number := by
  induction bs generalizing b with
  | nil => simp
  | cons b' bs ih =>
    obtain ⟨hnext, htail⟩ := List.isChain_cons_cons.mp h
    have hlt : b.number < b'.number := by
      rw [BitVec.lt_def, hnext]
      exact Nat.lt_succ_self _
    intro x hx
    rcases List.mem_cons.mp hx with rfl | hx
    · exact hlt
    · exact BitVec.lt_trans hlt (ih htail x hx)

/-- The bodies of a segment are found in a sorted table. -/
theorem reads_of_sorted (hrows : rows.Pairwise StoredBlock.Before)
    (hsegment : segment.IsChain fun b b' => b'.number.toNat = b.number.toNat + 1)
    (hmem : ∀ b ∈ segment, b ∈ rows) : Reads segment rows := by
  induction rows generalizing segment with
  | nil =>
    cases segment with
    | nil => exact .nil []
    | cons b bs => exact absurd (hmem b List.mem_cons_self) List.not_mem_nil
  | cons row rows ih =>
    obtain ⟨hrow, hrest⟩ := List.pairwise_cons.mp hrows
    cases segment with
    | nil => exact .nil _
    | cons b bs =>
      rcases List.mem_cons.mp (hmem b List.mem_cons_self) with rfl | hb
      · refine .block (ih hrest hsegment.tail fun b' hb' => ?_)
        refine (List.mem_cons.mp (hmem b' (List.mem_cons_of_mem _ hb'))).resolve_left fun heq => ?_
        exact BitVec.lt_irrefl _ (heq ▸ lt_of_consecutive hsegment b' hb')
      · have hbefore : row.number < b.number ∨ row.number = b.number ∧ row.hash ≠ b.hash := by
          refine (hrow b hb).imp_right fun h => ⟨h.1, fun heq => ?_⟩
          exact List.lt_irrefl _ (heq ▸ h.2)
        refine .skip hbefore (ih hrest hsegment fun b' hb' => ?_)
        refine (List.mem_cons.mp (hmem b' hb')).resolve_left fun heq => ?_
        -- the row comes before the block, and the blocks of the segment are not before it
        have hle : b.number ≤ row.number := by
          rcases List.mem_cons.mp hb' with h | h
          · rw [← heq, h]
            exact BitVec.le_refl _
          · rw [← heq]
            exact BitVec.le_of_lt (lt_of_consecutive hsegment b' h)
        rcases hrow b hb with h | ⟨hnum, hhash⟩
        · exact absurd h (BitVec.not_lt.mpr hle)
        · rcases List.mem_cons.mp hb' with h | h
          · rw [← heq, h] at hhash
            exact List.lt_irrefl _ hhash
          · have hlt := lt_of_consecutive hsegment b' h
            rw [heq, hnum] at hlt
            exact BitVec.lt_irrefl _ hlt

/-- From its first block on, the table holds the bodies of the segment. -/
theorem dropWhile_bodies {bodies : List StoredBlock} {b : StoredBlock} {bs : List StoredBlock}
    (h : CanonicalSegment hashes bodies (b :: bs)) :
    ∃ rows, (bodies.dropWhile fun row => ¬(row.number = b.number ∧ some row.hash = some b.hash)) =
      b :: rows ∧ Reads bs rows := by
  obtain ⟨pre, rows, hsplit⟩ := List.append_of_mem (h.body_mem b List.mem_cons_self)
  have hsorted := h.bodiesSorted
  rw [hsplit] at hsorted
  obtain ⟨-, hrows, hpre⟩ := List.pairwise_append.mp hsorted
  refine ⟨rows, ?_, reads_of_sorted (List.pairwise_cons.mp hrows).2 h.consecutive.tail ?_⟩
  · rw [hsplit, List.dropWhile_append_of_pos]
    · rw [List.dropWhile_cons_of_neg]
      simp
    · intro row hrow
      rcases hpre row hrow b List.mem_cons_self with hlt | ⟨-, hlt⟩
      · have hne : row.number ≠ b.number := fun heq => BitVec.lt_irrefl _ (heq ▸ hlt)
        simp [hne]
      · have hne : row.hash ≠ b.hash := fun heq => List.lt_irrefl _ (heq ▸ hlt)
        simp [hne]
  · intro b' hb'
    have hgt := lt_of_consecutive h.consecutive b' hb'
    have hmem := h.body_mem b' (List.mem_cons_of_mem _ hb')
    rw [hsplit] at hmem
    rcases List.mem_append.mp hmem with hmem | hmem
    · rcases hpre b' hmem b List.mem_cons_self with hlt | ⟨heq, -⟩
      · exact absurd (BitVec.lt_trans hlt hgt) (BitVec.lt_irrefl _)
      · exact absurd (heq ▸ hgt) (BitVec.lt_irrefl _)
    · refine (List.mem_cons.mp hmem).resolve_left fun heq => ?_
      exact BitVec.lt_irrefl _ (heq ▸ hgt)

/-- Rows within a segment that cover it are the segment. -/
theorem hashes_eq_segment {b : StoredBlock} {bs : List StoredBlock}
    (hsorted : hashes.Pairwise fun row row' => row.1 < row'.1)
    (hsegment : (b :: bs).IsChain fun b b' => b'.number.toNat = b.number.toNat + 1)
    (hmem : ∀ b' ∈ b :: bs, (b'.number, b'.hash) ∈ hashes)
    (hfirst : ∀ row ∈ hashes, b.number ≤ row.1)
    (hend : ∀ row ∈ hashes, row.1 ≤ ((b :: bs).getLast (List.cons_ne_nil b bs)).number) :
    hashes = (b :: bs).map fun b => (b.number, b.hash) := by
  induction bs generalizing b hashes with
  | nil =>
    have hall (row : Uint64 × Bytes32) (hrow : row ∈ hashes) : row.1 = b.number :=
      BitVec.le_antisymm (hend row hrow) (hfirst row hrow)
    cases hashes with
    | nil => exact absurd (hmem b List.mem_cons_self) List.not_mem_nil
    | cons row rows =>
      obtain ⟨hrow, -⟩ := List.pairwise_cons.mp hsorted
      have hnil : rows = [] := by
        refine List.eq_nil_iff_forall_not_mem.mpr fun row' h' => ?_
        have hlt := hrow row' h'
        rw [hall row List.mem_cons_self, hall row' (List.mem_cons_of_mem _ h')] at hlt
        exact BitVec.lt_irrefl _ hlt
      subst hnil
      exact congrArg (fun row => [row]) (List.mem_singleton.mp (hmem b List.mem_cons_self)).symm
  | cons b' bs ih =>
    cases hashes with
    | nil => exact absurd (hmem b List.mem_cons_self) List.not_mem_nil
    | cons row rows =>
      obtain ⟨hrow, hrows⟩ := List.pairwise_cons.mp hsorted
      obtain ⟨hnext, htail⟩ := List.isChain_cons_cons.mp hsegment
      have hb : (b.number, b.hash) = row := by
        refine (List.mem_cons.mp (hmem b List.mem_cons_self)).resolve_right fun h => ?_
        exact absurd (hrow _ h) (BitVec.not_lt.mpr (hfirst row List.mem_cons_self))
      subst hb
      refine congrArg _ (ih hrows htail (fun x hx => ?_) (fun row h => ?_) fun row h => ?_)
      · refine (List.mem_cons.mp (hmem x (List.mem_cons_of_mem _ hx))).resolve_left fun heq => ?_
        have hlt := lt_of_consecutive hsegment x hx
        rw [(Prod.mk.inj heq).1] at hlt
        exact BitVec.lt_irrefl _ hlt
      · have hlt : b.number < row.1 := hrow row h
        rw [BitVec.lt_def] at hlt
        rw [BitVec.le_def, hnext]
        exact hlt
      · exact hend row (List.mem_cons_of_mem _ h)

/-- From its first number on, a table that ends with the segment is the segment. -/
theorem dropWhile_hashes {b : StoredBlock} {bs : List StoredBlock}
    (hsorted : hashes.Pairwise fun row row' => row.1 < row'.1)
    (hsegment : (b :: bs).IsChain fun b b' => b'.number.toNat = b.number.toNat + 1)
    (hmem : ∀ b' ∈ b :: bs, (b'.number, b'.hash) ∈ hashes)
    (hend : ∀ row ∈ hashes, row.1 ≤ ((b :: bs).getLast (List.cons_ne_nil b bs)).number) :
    (hashes.dropWhile fun row => row.1 ≠ b.number) =
      (b :: bs).map fun b => (b.number, b.hash) := by
  induction hashes with
  | nil => exact absurd (hmem b List.mem_cons_self) List.not_mem_nil
  | cons row rows ih =>
    obtain ⟨hrow, hrows⟩ := List.pairwise_cons.mp hsorted
    by_cases hb : row.1 = b.number
    · rw [List.dropWhile_cons_of_neg (by simp [hb])]
      refine hashes_eq_segment hsorted hsegment hmem (fun row' h' => ?_) hend
      rcases List.mem_cons.mp h' with rfl | h'
      · exact hb ▸ BitVec.le_refl _
      · exact hb ▸ BitVec.le_of_lt (hrow row' h')
    · rw [List.dropWhile_cons_of_pos (by simp [hb])]
      have hfirst : (b.number, b.hash) ∈ rows :=
        (List.mem_cons.mp (hmem b List.mem_cons_self)).resolve_left fun h => hb (h ▸ rfl)
      refine ih hrows (fun x hx => ?_) fun row' h' => hend row' (List.mem_cons_of_mem _ h')
      refine (List.mem_cons.mp (hmem x hx)).resolve_left fun heq => ?_
      rcases List.mem_cons.mp hx with rfl | hx
      · exact hb (heq ▸ rfl)
      · have hlt := lt_of_consecutive hsegment x hx
        have hgt : row.1 < b.number := hrow _ hfirst
        rw [← heq] at hgt
        exact BitVec.lt_irrefl _ (BitVec.lt_trans hlt hgt)

/-- All headers of the segment are collected. -/
theorem collectHeaders_segment {b : StoredBlock} {bs : List StoredBlock} {reached : Uint64}
    {headers : List Bytes32}
    (hsegment : (b :: bs).IsChain fun b b' => b'.number.toNat = b.number.toNat + 1) :
    collectHeaders ((b :: bs).getLast (List.cons_ne_nil b bs)).number b.number reached headers
        ((b :: bs).map fun b => (b.number, b.hash)) =
      .ok (headers ++ (b :: bs).map StoredBlock.hash) := by
  induction bs generalizing b reached headers with
  | nil => simp [collectHeaders]
  | cons b' bs ih =>
    obtain ⟨hnext, htail⟩ := List.isChain_cons_cons.mp hsegment
    have hsucc : b.number + 1 = b'.number := by
      apply BitVec.eq_of_toNat_eq
      rw [hnext, BitVec.toNat_add_of_lt]
      · rfl
      · exact hnext ▸ b'.number.isLt
    rw [List.map_cons, collectHeaders, if_neg (not_not.mpr rfl), hsucc, List.getLast_cons_cons]
    refine (ih htail).trans ?_
    simp

end Segments

end Silkworm.Senders
