import Silkworm.BatchFlushes
import Silkworm.HistoryLoads
import Silkworm.LogIndex

/-!
# The stored logs

The table of the logs has one entry for every receipt with logs, under the number of the block and
the index of the receipt.
-/

namespace Silkworm.Db
open BigEndian SortedTables

/-- What is stored of a receipt. -/
def receiptEntry (engine : Engine) (blockNumber : Uint64) (x : Receipt × ℕ) : Option Entry :=
  if x.1.logs.isEmpty then none
  else some (logKey blockNumber (BitVec.ofNat 32 x.2), engine.cbor.encodeLogs x.1.logs)

/-- What is stored of a block. -/
def logEntries (engine : Engine) (block : BlockReceipts) : List Entry :=
  block.receipts.zipIdx.filterMap (receiptEntry engine block.number)

/-- The table holds the logs of some blocks, and nothing else. -/
def StoresLogs (engine : Engine) (blocks : List BlockReceipts) (logs : PlainTable) : Prop :=
  ∀ e, e ∈ logs.entries ↔ e ∈ blocks.flatMap (logEntries engine)

/-- The block of an entry, as the stage reads it. -/
def entryNumber (e : Entry) : Uint64 := BitVec.ofNat 64 (ofBigEndian (e.1.take 8))

section Keys

variable {engine : Engine} {block : BlockReceipts} {e : Entry}

theorem mem_logEntries : e ∈ logEntries engine block ↔ ∃ i receipt,
    block.receipts[i]? = some receipt ∧ receipt.logs ≠ [] ∧
    e = (logKey block.number (BitVec.ofNat 32 i), engine.cbor.encodeLogs receipt.logs) := by
  rw [logEntries, List.mem_filterMap]
  constructor
  · rintro ⟨⟨receipt, i⟩, hx, he⟩
    rw [receiptEntry] at he
    split_ifs at he with hempty
    cases he
    exact ⟨i, receipt, List.mem_zipIdx_iff_getElem?.mp hx,
      fun hnil => hempty (List.isEmpty_iff.mpr hnil), rfl⟩
  · rintro ⟨i, receipt, hi, hne, rfl⟩
    refine ⟨(receipt, i), List.mem_zipIdx_iff_getElem?.mpr hi, if_neg fun hempty => ?_⟩
    exact hne (List.isEmpty_iff.mp hempty)

theorem entryNumber_logKey (n : Uint64) (i : BitVec 32) (value : Bytes) :
    entryNumber (logKey n i, value) = n := by
  rw [entryNumber, logKey, List.take_left' (length_bigU64 n), bigU64, ofBigEndian_fixedBigEndian,
    BitVec.ofNat_toNat, BitVec.setWidth_eq]

theorem entryNumber_of_mem (h : e ∈ logEntries engine block) : entryNumber e = block.number := by
  obtain ⟨i, receipt, -, -, rfl⟩ := mem_logEntries.mp h
  exact entryNumber_logKey _ _ _

/-- Entries are passed if their blocks are before the one that is sought. -/
theorem logKey_lt_iff {n m : Uint64} {i : BitVec 32} :
    logKey n i < bigU64 m ↔ n.toNat < m.toNat := by
  rw [logKey]
  have hlen : (bigU64 n).length = (bigU64 m).length := by rw [length_bigU64, length_bigU64]
  constructor
  · intro h
    by_contra hle
    rcases Nat.lt_or_eq_of_le (not_lt.mp hle) with hlt | heq
    · have hgt := append_lt_append_of_lt (bigU64_lt_iff.mpr hlt) hlen.symm []
        (fixedBigEndian 4 i.toNat)
      rw [List.append_nil] at hgt
      exact List.lt_asymm h hgt
    · rw [BitVec.eq_of_toNat_eq heq] at h
      exact absurd (List.prefix_append (bigU64 n) _).le (List.not_le.mpr h)
  · intro hlt
    have h := append_lt_append_of_lt (bigU64_lt_iff.mpr hlt) hlen (fixedBigEndian 4 i.toNat) []
    rwa [List.append_nil] at h

theorem logKey_injective {n n' : Uint64} {i i' : BitVec 32} (h : logKey n i = logKey n' i') :
    n = n' ∧ i = i' := by
  obtain ⟨hn, hi⟩ := List.append_inj h (by rw [length_bigU64, length_bigU64])
  refine ⟨bigU64_injective hn, BitVec.eq_of_toNat_eq ?_⟩
  have hnat := congrArg ofBigEndian hi
  rwa [ofBigEndian_fixedBigEndian, ofBigEndian_fixedBigEndian] at hnat

/-- The receipts of some blocks have keys of their own. -/
theorem pairwise_logEntries (engine : Engine) {blocks : List BlockReceipts}
    (hsorted : blocks.Pairwise fun block block' => block.number.toNat < block'.number.toNat) :
    ((blocks.flatMap (logEntries engine)).map Prod.fst).Nodup := by
  rw [List.Nodup, List.pairwise_map, List.pairwise_flatMap]
  refine ⟨fun block _ => ?_, hsorted.imp fun {block block'} hlt e he e' he' hkey => ?_⟩
  · have hindices : block.receipts.zipIdx.Pairwise fun x y => x.2 ≠ y.2 :=
      List.pairwise_map.mp (List.nodup_zipIdx_map_snd block.receipts)
    have hlt (x : Receipt × ℕ) (hx : x ∈ block.receipts.zipIdx) : x.2 < 2 ^ 32 := by
      have hget := List.mem_zipIdx_iff_getElem?.mp hx
      exact (List.getElem?_eq_some_iff.mp hget).1.trans block.length_lt
    rw [logEntries, List.pairwise_filterMap]
    refine hindices.imp_of_mem fun {x y} hx hy hne e he e' he' hkey => hne ?_
    rw [receiptEntry] at he he'
    split_ifs at he he'
    cases he
    cases he'
    have hi := congrArg BitVec.toNat (logKey_injective hkey).2
    rwa [BitVec.toNat_ofNat, BitVec.toNat_ofNat, Nat.mod_eq_of_lt (hlt x hx),
      Nat.mod_eq_of_lt (hlt y hy)] at hi
  · obtain ⟨i, receipt, -, -, rfl⟩ := mem_logEntries.mp he
    obtain ⟨i', receipt', -, -, rfl⟩ := mem_logEntries.mp he'
    exact absurd (congrArg BitVec.toNat (logKey_injective hkey).1) hlt.ne

end Keys

section Storing

variable {engine : Engine}

theorem logs_bumpBatchSize (b : Buffer) (inserted : Bool) (keyLen valueLen : ℕ) :
    (b.bumpBatchSize inserted keyLen valueLen).logs = b.logs := by
  rw [Buffer.bumpBatchSize]
  split_ifs <;> rfl

theorem logs_insertReceipts (b : Buffer) (block : BlockReceipts) :
    (b.insertReceipts engine block.number block.receipts).logs =
      (logEntries engine block).foldl (fun m e => m.set e.1 e.2) b.logs := by
  have hfold (l : List (Receipt × ℕ)) (b : Buffer) :
      (l.foldl (Buffer.insertLogs engine block.number) b).logs =
        (l.filterMap (receiptEntry engine block.number)).foldl (fun m e => m.set e.1 e.2) b.logs := by
    induction l generalizing b with
    | nil => rfl
    | cons x l ih =>
      rw [List.foldl_cons, ih, Buffer.insertLogs]
      by_cases hempty : x.1.logs.isEmpty
      · have hnone : receiptEntry engine block.number x = none := if_pos hempty
        rw [if_pos hempty, List.filterMap_cons_none hnone]
      · have hsome : receiptEntry engine block.number x = some _ := if_neg hempty
        rw [if_neg hempty, List.filterMap_cons_some hsome, List.foldl_cons]
        dsimp only
        rw [logs_bumpBatchSize]
  exact (logs_bumpBatchSize _ _ _ _).trans (hfold _ b)

theorem logs_foldl_insertReceipts (b : Buffer) (blocks : List BlockReceipts) :
    (blocks.foldl (fun b block =>
      b.insertReceipts engine block.number block.receipts) b).logs =
      (blocks.flatMap (logEntries engine)).foldl (fun m e => m.set e.1 e.2) b.logs := by
  induction blocks generalizing b with
  | nil => rfl
  | cons block blocks ih =>
    rw [List.foldl_cons, ih, logs_insertReceipts, List.flatMap_cons, List.foldl_append]

/-- What is written of the buffer. -/
theorem get_storeLogs (logs : PlainTable) (blocks : List BlockReceipts) (key : Bytes) :
    (storeLogs engine logs blocks).get key =
      (((blocks.flatMap (logEntries engine)).foldl (fun m e => m.set e.1 e.2)
        (∅ : HashMap Bytes Bytes)).find key).or (logs.get key) := by
  have hget := get_foldl_put (fun k k' (h : (id k : Bytes) = id k') => h) id
    (blocks.foldl (fun b block =>
      b.insertReceipts engine block.number block.receipts) ({} : Buffer)).logs logs key
  rw [logs_foldl_insertReceipts] at hget
  rw [storeLogs]
  refine (Eq.trans ?_ hget).trans ?_
  · rw [Buffer.flush, logs_foldl_insertReceipts]
    rfl
  · rw [Option.map_id]
    rfl

/-- The logs of new blocks are stored beside those of the old ones. -/
theorem StoresLogs.storeLogs {blocks new : List BlockReceipts} {logs : PlainTable}
    (h : StoresLogs engine blocks logs)
    (hsorted : (blocks ++ new).Pairwise fun block block' =>
      block.number.toNat < block'.number.toNat) :
    StoresLogs engine (blocks ++ new) (storeLogs engine logs new) := by
  have hnodup := pairwise_logEntries engine hsorted
  rw [List.flatMap_append, List.map_append, List.nodup_append] at hnodup
  obtain ⟨-, hnew, hapart⟩ := hnodup
  have hset (m : HashMap Bytes Bytes) (k v k' : Bytes) :
      (m.set k v).find k' = if k' = k then some v else m.find k' := HashMap.find_set ..
  intro e
  have hold : logs.get e.1 = some e.2 ↔ e ∈ blocks.flatMap (logEntries engine) := by
    rw [PlainTable.get_eq_some]
    exact h e
  have hmem : e ∈ (Db.storeLogs engine logs new).entries ↔
      (Db.storeLogs engine logs new).get e.1 = some e.2 := PlainTable.get_eq_some.symm
  rw [hmem, get_storeLogs, List.flatMap_append, List.mem_append]
  by_cases hkey : e.1 ∈ (new.flatMap (logEntries engine)).map Prod.fst
  · obtain ⟨e', he', heq⟩ := List.mem_map.mp hkey
    have hfind := HashMap.read_foldl_of_mem (fun (m : HashMap Bytes Bytes) k => m.find k)
      (fun _ v _ => some v) (f := fun m e => m.set e.1 e.2) hset hnew he' ∅
    have hnot : e ∉ blocks.flatMap (logEntries engine) := fun he =>
      hapart e.1 (List.mem_map_of_mem he) e.1 hkey rfl
    rw [← heq, hfind, Option.some_or, or_iff_right hnot]
    constructor
    · intro hv
      rwa [← Prod.ext heq (Option.some.inj hv)]
    · intro he
      exact congrArg some (List.inj_on_of_nodup_map hnew he' he heq ▸ rfl)
  · have hfind := HashMap.read_foldl_of_not_mem (fun (m : HashMap Bytes Bytes) k => m.find k)
      (fun _ v _ => some v) (f := fun m e => m.set e.1 e.2) hset hkey ∅
    have hnot : e ∉ new.flatMap (logEntries engine) := fun he => hkey (List.mem_map_of_mem he)
    rw [hfind, HashMap.find_empty, Option.none_or, hold, or_iff_left hnot]

end Storing

end Silkworm.Db
