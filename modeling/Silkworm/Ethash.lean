import Silkworm.Blocks
import Silkworm.EpochSizes
import Silkworm.Keccak

/-!
# Ethash

A header is sealed when the hash of its nonce and of a mix of dataset items is small enough. The
context of the last epoch is kept between the headers, and so is the last epoch that has been found
by its seed. What is kept does not change the results. The sizes of an epoch wrap around: without an
item in its light cache the cache is written out of its memory, and without one in its dataset the
mix is a division by zero.
-/

namespace Silkworm.Ethash
open BigEndian LittleEndian Keccak Rlp

abbrev Word := BitVec 32
abbrev Hash512 := FixedBytes 64
abbrev Hash1024 := FixedBytes 128

section Words

/-- The words of a hash, as a union with its bytes. -/
def word32 (b : Bytes) (i : ℕ) : Word := BitVec.ofNat 32 (ofLittleEndian ((b.drop (4 * i)).take 4))
def word64 (b : Bytes) (i : ℕ) : Uint64 := BitVec.ofNat 64 (ofLittleEndian ((b.drop (8 * i)).take 8))

theorem length_flatMap_range (k n : ℕ) (f : ℕ → ℕ) :
    ((List.range n).flatMap fun i => littleEndian k (f i)).length = k * n := by
  induction n with
  | zero => rfl
  | succ n ih =>
    rw [List.range_succ, List.flatMap_append, List.length_append, ih, List.flatMap_singleton,
      length_littleEndian, Nat.mul_succ]

def ofWord32s (n : ℕ) (f : ℕ → Word) : FixedBytes (4 * n) :=
  ⟨(List.range n).flatMap fun i => littleEndian 4 (f i).toNat,
    length_flatMap_range 4 n fun i => (f i).toNat⟩

def ofWord64s (n : ℕ) (f : ℕ → Uint64) : FixedBytes (8 * n) :=
  ⟨(List.range n).flatMap fun i => littleEndian 8 (f i).toNat,
    length_flatMap_range 8 n fun i => (f i).toNat⟩

def keccak512 (input : Bytes) : Hash512 := ⟨keccak .keccak512 input, length_keccak .keccak512 input⟩

abbrev kFnvPrime : Word := 0x01000193

def fnv1 (u v : Word) : Word := (u * kFnvPrime) ^^^ v

def fnv1Hash512 (a b : Hash512) : Hash512 :=
  ofWord32s 16 fun i => fnv1 (word32 a.val i) (word32 b.val i)

def xor512 (x y : Hash512) : Hash512 := ofWord64s 8 fun i => word64 x.val i ^^^ word64 y.val i

end Words

section Dataset

abbrev kLightCacheRounds : ℕ := 3
abbrev kFullDatasetItemParents : ℕ := 256
abbrev kNumDatasetAccesses : ℕ := 64
abbrev kEpochLength : ℕ := 30000

/-- A number of items that an index is reduced by. -/
abbrev NumItems := {n : Word // n ≠ 0}

structure EpochContext where
  epochNumber : Word
  lightCacheNumItems : NumItems
  fullDatasetNumItems : Word
  lightCache : List Hash512

structure ItemState where
  cache : List Hash512
  numCacheItems : NumItems
  seed : Word
  mix : Hash512

def itemState (context : EpochContext) (index : Word) : ItemState :=
  let mix := context.lightCache.getD (index % context.lightCacheNumItems.val).toNat default
  let mix : Hash512 := ofWord32s 16 fun i =>
    if i = 0 then word32 mix.val 0 ^^^ index else word32 mix.val i
  { cache := context.lightCache
    numCacheItems := context.lightCacheNumItems
    seed := index
    mix := keccak512 mix.val }

def ItemState.update (item : ItemState) (round : ℕ) : ItemState :=
  let t := fnv1 (item.seed ^^^ BitVec.ofNat 32 round) (word32 item.mix.val (round % 16))
  let parentIndex := t % item.numCacheItems.val
  { item with mix := fnv1Hash512 item.mix (item.cache.getD parentIndex.toNat default) }

def ItemState.final (item : ItemState) : Hash512 := keccak512 item.mix.val

def calculateDatasetItem1024 (context : EpochContext) (index : Word) : Hash1024 :=
  let items := (List.range kFullDatasetItemParents).foldl
    (fun items i => (items.1.update i, items.2.update i))
    (itemState context (index * 2), itemState context (index * 2 + 1))
  ⟨items.1.final.val ++ items.2.final.val, by simp [items.1.final.prop, items.2.final.prop]⟩

/-- The first items, each of which is the hash of the one before. -/
def firstItems (item : Hash512) : ℕ → List Hash512
  | 0 => []
  | n + 1 => item :: firstItems (keccak512 item.val) n

def mixItem (numItems : NumItems) (cache : List Hash512) (i : ℕ) : List Hash512 :=
  let t := word32 (cache.getD i default).val 0
  let v := t % numItems.val
  let w := (numItems.val + (BitVec.ofNat 32 i - 1)) % numItems.val
  let x := xor512 (cache.getD v.toNat default) (cache.getD w.toNat default)
  cache.set i (keccak512 x.val)

def buildLightCache (numItems : NumItems) (seed : Bytes32) : List Hash512 :=
  (List.range kLightCacheRounds).foldl
    (fun cache _ => (List.range numItems.val.toNat).foldl (mixItem numItems) cache)
    (firstItems (keccak512 seed.val) numItems.val.toNat)

def calculateSeedFromEpoch (epochNumber : Word) : Bytes32 :=
  (fun seed => keccak256 seed.val)^[epochNumber.toNat] default

/-- The memory for the cache is there. The first item is written to it in any case, which is not
defined for a cache without items. -/
def createEpochContext (epochNumber : Word) : Option EpochContext :=
  if hzero : calculateLightCacheNumItems epochNumber = 0 then none
  else
    let lightCacheNumItems : NumItems := ⟨calculateLightCacheNumItems epochNumber, hzero⟩
    some {
      epochNumber
      lightCacheNumItems
      fullDatasetNumItems := calculateFullDatasetNumItems epochNumber
      lightCache := buildLightCache lightCacheNumItems (calculateSeedFromEpoch epochNumber) }

end Dataset

section Hash

def hashSeed (header : Bytes32) (nonce : Uint64) : Hash512 :=
  keccak512 (header.val ++ littleEndian 8 nonce.toNat)

/-- A division by zero is none. -/
def hashMix (context : EpochContext) (seed : Hash512) : Option Bytes32 :=
  let indexLimit := context.fullDatasetNumItems
  if indexLimit = 0 then none
  else
    let seedInit := word32 seed.val 0
    let mix := (List.range kNumDatasetAccesses).foldl (fun (mix : Hash1024) i =>
        let p := fnv1 (BitVec.ofNat 32 i ^^^ seedInit) (word32 mix.val (i % 32)) % indexLimit
        let newdata := calculateDatasetItem1024 context p
        ofWord32s 32 fun j => fnv1 (word32 mix.val j) (word32 newdata.val j))
      ⟨seed.val ++ seed.val, by simp [seed.prop]⟩
    some <| ofWord32s 8 fun i =>
      let h1 := fnv1 (word32 mix.val (4 * i)) (word32 mix.val (4 * i + 1))
      let h2 := fnv1 h1 (word32 mix.val (4 * i + 2))
      fnv1 h2 (word32 mix.val (4 * i + 3))

def hashFinal (seed : Hash512) (mix : Bytes32) : Bytes32 := keccak256 (seed.val ++ mix.val)

structure Result where
  finalHash : Bytes32
  mixHash : Bytes32

def hash (context : EpochContext) (header : Bytes32) (nonce : Uint64) : Option Result := do
  let seed := hashSeed header nonce
  let mixHash ← hashMix context seed
  some ⟨hashFinal seed mixHash, mixHash⟩

end Hash

section Verification

inductive VerificationResult
  | ok | invalidNonce | invalidMixHash
  deriving DecidableEq

/-- The words from `i` on, as big-endian numbers. -/
def isLessOrEqualFrom (a b : Bytes) (i : ℕ) : Bool :=
  if i < 4 then
    let x := ofBigEndian ((a.drop (8 * i)).take 8)
    let y := ofBigEndian ((b.drop (8 * i)).take 8)
    if y < x then false
    else if x < y then true
    else isLessOrEqualFrom a b (i + 1)
  else true
termination_by 4 - i

def isLessOrEqual (a b : Bytes32) : Bool := isLessOrEqualFrom a.val b.val 0

abbrev kDividend : Uint256 := BitVec.allOnes 256

def getBoundaryFromDiff (difficulty : Uint256) : Bytes32 :=
  let result := if 1 < difficulty then kDividend / difficulty else kDividend
  ⟨fixedBigEndian 32 result.toNat, length_fixedBigEndian result.isLt⟩

def verifyFull (context : EpochContext) (headerHash mixHash : Bytes32) (nonce : Uint64)
    (boundary : Bytes32) : Option VerificationResult :=
  let seed := hashSeed headerHash nonce
  if ¬ isLessOrEqual (hashFinal seed mixHash) boundary then some .invalidNonce
  else do
    let expectedMixHash ← hashMix context seed
    if mixHash ≠ expectedMixHash then some .invalidMixHash else some .ok

/-- The context of the last call, or a new one for another epoch. -/
def contextAt (epochContext : Option EpochContext) (epochNumber : Word) : Option EpochContext :=
  match epochContext with
  | some context =>
    if context.epochNumber ≠ epochNumber then createEpochContext epochNumber else some context
  | none => createEpochContext epochNumber

def verifyFullAt (epochContext : Option EpochContext) (blockNum : Uint64)
    (headerHash mixHash : Bytes32) (nonce : Uint64) (boundary : Bytes32) :
    Option (VerificationResult × EpochContext) := do
  let context ← contextAt epochContext (BitVec.ofNat 32 (blockNum.toNat / kEpochLength))
  let result ← verifyFull context headerHash mixHash nonce boundary
  some (result, context)

def sealHash (header : BlockHeader) : Bytes32 := keccak256 (encodeBlockHeaderAs header true)

def sealNonce (header : BlockHeader) : Uint64 := BitVec.ofNat 64 (ofBigEndian header.nonce.val)

/-- The check of the seal at the end of `validate_block_header`. -/
def checkSeal (epochContext : Option EpochContext) (header : BlockHeader) :
    Option (Bool × EpochContext) := do
  let (result, context) ← verifyFullAt epochContext header.number (sealHash header) header.mixHash
    (sealNonce header) (getBoundaryFromDiff header.difficulty)
  some (decide (result = .ok), context)

/-- The headers of a run, one after the other. -/
def checkSeals : Option EpochContext → List BlockHeader → Option (List Bool)
  | _, [] => some []
  | epochContext, header :: headers => do
    let (valid, context) ← checkSeal epochContext header
    let results ← checkSeals (some context) headers
    some (valid :: results)

end Verification

section Epochs

/-- The static variables: the last epoch that was found, and a seed. -/
structure CachedEpoch where
  number : Option Word := none
  seed : Bytes32 := default

abbrev kNumTries : ℕ := 30000

/-- The search from epoch `i` on, with `tries` left. -/
def searchEpoch (seed : Bytes32) : ℕ → Word → Bytes32 → Option Word × CachedEpoch
  | 0, _, cachedEpochSeed => (none, ⟨none, cachedEpochSeed⟩)
  | tries + 1, i, cachedEpochSeed =>
    if cachedEpochSeed = seed then (some i, ⟨some i, cachedEpochSeed⟩)
    else searchEpoch seed tries (i + 1) (keccak256 cachedEpochSeed.val)

def calculateEpochFromSeed (cached : CachedEpoch) (seed : Bytes32) : Option Word × CachedEpoch :=
  match cached.number with
  | some number =>
    if seed = cached.seed then (some number, cached)
    else
      let next := keccak256 cached.seed.val
      if next = seed then (some (number + 1), ⟨some (number + 1), next⟩)
      else searchEpoch seed kNumTries 0 default
  | none => searchEpoch seed kNumTries 0 default

/-- What is left in the static variables after some calls. -/
def afterSearches (seeds : List Bytes32) : CachedEpoch :=
  seeds.foldl (fun cached seed => (calculateEpochFromSeed cached seed).2) {}

end Epochs

section Boundaries

variable {a b : Bytes}

/-- The first eight bytes decide, unless they are equal. -/
theorem ofBigEndian_le_iff_of_split (ha : a.length = b.length) :
    ofBigEndian a ≤ ofBigEndian b ↔
      ofBigEndian (a.take 8) < ofBigEndian (b.take 8) ∨
        ofBigEndian (a.take 8) = ofBigEndian (b.take 8) ∧
          ofBigEndian (a.drop 8) ≤ ofBigEndian (b.drop 8) := by
  have hlen : (a.drop 8).length = (b.drop 8).length := by
    rw [List.length_drop, List.length_drop, ha]
  have hlow := ofBigEndian_lt (a.drop 8)
  have hlow' := ofBigEndian_lt (b.drop 8)
  conv_lhs => rw [← List.take_append_drop 8 a, ← List.take_append_drop 8 b, ofBigEndian_append,
    ofBigEndian_append, hlen]
  rw [hlen] at hlow
  rcases Nat.lt_trichotomy (ofBigEndian (a.take 8)) (ofBigEndian (b.take 8)) with hlt | heq | hgt
  · have hmul := Nat.mul_le_mul_left (256 ^ (b.drop 8).length) (Nat.succ_le_of_lt hlt)
    rw [Nat.mul_succ] at hmul
    refine iff_of_true ?_ (.inl hlt)
    omega
  · simp [heq]
  · have hmul := Nat.mul_le_mul_left (256 ^ (b.drop 8).length) (Nat.succ_le_of_lt hgt)
    rw [Nat.mul_succ] at hmul
    refine iff_of_false ?_ ?_
    · omega
    · omega

theorem isLessOrEqualFrom_iff (ha : a.length = 32) (hb : b.length = 32) (i : ℕ) :
    isLessOrEqualFrom a b i = true ↔ ofBigEndian (a.drop (8 * i)) ≤ ofBigEndian (b.drop (8 * i)) := by
  fun_induction isLessOrEqualFrom a b i with
  | case1 i hi x y hgt =>
    rw [ofBigEndian_le_iff_of_split (by simp [ha, hb])]
    simp only [Bool.false_eq_true, false_iff]
    omega
  | case2 i hi x y hle hlt =>
    rw [ofBigEndian_le_iff_of_split (by simp [ha, hb])]
    simp only [true_iff]
    exact .inl hlt
  | case3 i hi x y hle hge ih =>
    have heq : x = y := by omega
    rw [ih, ofBigEndian_le_iff_of_split (a := a.drop (8 * i)) (by simp [ha, hb]), List.drop_drop,
      List.drop_drop, Nat.mul_succ]
    change _ ↔ x < y ∨ x = y ∧ _
    simp [heq]
  | case4 i hi =>
    have hdrop {c : Bytes} (hc : c.length = 32) : c.drop (8 * i) = [] :=
      List.drop_of_length_le (by omega)
    rw [hdrop ha, hdrop hb]
    simp

theorem isLessOrEqual_iff (a b : Bytes32) :
    isLessOrEqual a b = true ↔ ofBigEndian a.val ≤ ofBigEndian b.val :=
  isLessOrEqualFrom_iff a.prop b.prop 0

theorem ofBigEndian_hash_lt (h : Bytes32) : ofBigEndian h.val < 2 ^ 256 := by
  have hbound := ofBigEndian_lt h.val
  rw [h.prop] at hbound
  exact hbound

/-- There is no rounding in the end. -/
theorem isLessOrEqual_boundary_iff (h : Bytes32) (difficulty : Uint256) :
    isLessOrEqual h (getBoundaryFromDiff difficulty) = true ↔
      ofBigEndian h.val * difficulty.toNat < 2 ^ 256 := by
  have hlt := ofBigEndian_hash_lt h
  have hdividend : kDividend.toNat = 2 ^ 256 - 1 := by decide
  rw [isLessOrEqual_iff, getBoundaryFromDiff, ofBigEndian_fixedBigEndian]
  split_ifs with hdifficulty
  · have hpos : 0 < difficulty.toNat := Nat.zero_lt_of_lt hdifficulty
    rw [BitVec.toNat_udiv, hdividend, Nat.le_div_iff_mul_le hpos]
    omega
  · have hle : difficulty.toNat ≤ 1 := not_lt.mp hdifficulty
    have hmul : ofBigEndian h.val * difficulty.toNat < 2 ^ 256 :=
      (Nat.mul_le_mul_left _ hle).trans_lt (by omega)
    rw [hdividend]
    exact iff_of_true (by omega) hmul

end Boundaries

section Seals

def epochOf (header : BlockHeader) : Word :=
  BitVec.ofNat 32 (header.number.toNat / kEpochLength)

/-- The nonce of a header with its mix is a result for the epoch, and it is small enough for the
difficulty. -/
def Sealed (header : BlockHeader) : Prop :=
  ∃ context ∈ createEpochContext (epochOf header),
    ∃ result ∈ hash context (sealHash header) (sealNonce header),
      result.mixHash = header.mixHash ∧
        ofBigEndian result.finalHash.val * header.difficulty.toNat < 2 ^ 256

instance (header : BlockHeader) : Decidable (Sealed header) :=
  inferInstanceAs (Decidable (∃ context ∈ createEpochContext (epochOf header),
    ∃ result ∈ hash context (sealHash header) (sealNonce header), _ ∧ _))

/-- The nonce of a header with its own mix is small enough for the difficulty. -/
def SmallNonce (header : BlockHeader) : Prop :=
  ofBigEndian (hashFinal (hashSeed (sealHash header) (sealNonce header)) header.mixHash).val *
    header.difficulty.toNat < 2 ^ 256

/-- The epoch of a header has a light cache, and a dataset if it is needed for the mix. -/
def Verifiable (header : BlockHeader) : Prop :=
  calculateLightCacheNumItems (epochOf header) ≠ 0 ∧
    (calculateFullDatasetNumItems (epochOf header) = 0 → ¬ SmallNonce header)

theorem hashMix_eq_none {context : EpochContext} {seed : Hash512} :
    hashMix context seed = none ↔ context.fullDatasetNumItems = 0 := by
  rw [hashMix]
  split_ifs with hzero
  · exact iff_of_true rfl hzero
  · exact iff_of_false nofun hzero

theorem mem_createEpochContext {epochNumber : Word} {context : EpochContext}
    (h : context ∈ createEpochContext epochNumber) :
    calculateLightCacheNumItems epochNumber ≠ 0 ∧ context.epochNumber = epochNumber ∧
      context.fullDatasetNumItems = calculateFullDatasetNumItems epochNumber := by
  rw [createEpochContext] at h
  split_ifs at h with hzero
  · cases h
  · cases h
    exact ⟨hzero, rfl, rfl⟩

variable {header : BlockHeader} {context : EpochContext} {epochContext : Option EpochContext}

theorem sealed_iff (h : createEpochContext (epochOf header) = some context) : Sealed header ↔
    hashMix context (hashSeed (sealHash header) (sealNonce header)) = some header.mixHash ∧
      SmallNonce header := by
  constructor
  · rintro ⟨context', hcontext', result, hresult, hmix, hsmall⟩
    obtain rfl := Option.some.inj (h.symm.trans hcontext')
    obtain ⟨mixHash, hmixHash, hresult⟩ := Option.bind_eq_some_iff.mp hresult
    cases hresult
    rw [← hmix]
    refine ⟨hmixHash, ?_⟩
    rw [SmallNonce, ← hmix]
    exact hsmall
  · rintro ⟨hmix, hsmall⟩
    exact ⟨context, h, ⟨_, header.mixHash⟩, Option.bind_eq_some_iff.mpr ⟨_, hmix, rfl⟩, rfl, hsmall⟩

/-- The nonce is checked with the mix of the header, which is the right one in the end. -/
theorem verifyFull_iff (h : createEpochContext (epochOf header) = some context) {valid : Bool} :
    (∃ result, verifyFull context (sealHash header) header.mixHash (sealNonce header)
        (getBoundaryFromDiff header.difficulty) = some result ∧ valid = decide (result = .ok)) ↔
      (calculateFullDatasetNumItems (epochOf header) = 0 → ¬ SmallNonce header) ∧
        valid = decide (Sealed header) := by
  obtain ⟨-, -, hfull⟩ := mem_createEpochContext h
  have hsealed := sealed_iff h
  rw [← hfull, ← @hashMix_eq_none context (hashSeed (sealHash header) (sealNonce header))]
  rw [verifyFull]
  have hless : isLessOrEqual _ _ = true ↔ SmallNonce header := isLessOrEqual_boundary_iff _ _
  by_cases hsmall : SmallNonce header
  · rw [if_neg (not_not.mpr (hless.mpr hsmall))]
    cases hmix : hashMix context (hashSeed (sealHash header) (sealNonce header)) with
    | none => simp [hsmall]
    | some mixHash =>
      rw [hmix] at hsealed
      by_cases heq : header.mixHash = mixHash
      · simp [heq, hsealed, hsmall]
      · simp [heq, hsealed, Ne.symm heq]
  · have hnot : ¬ Sealed header := fun hs => hsmall (hsealed.mp hs).2
    rw [if_pos fun hle => hsmall (hless.mp hle)]
    simp [hsmall, hnot]

/-- What is kept is the context of its epoch. -/
def Keeps (epochContext : Option EpochContext) : Prop :=
  ∀ context ∈ epochContext, createEpochContext context.epochNumber = some context

theorem Keeps.contextAt (h : Keeps epochContext) (epochNumber : Word) :
    contextAt epochContext epochNumber = createEpochContext epochNumber := by
  cases epochContext with
  | none => rfl
  | some context =>
    rw [Ethash.contextAt]
    split_ifs with hother
    · rfl
    · rw [← not_not.mp hother, h context rfl]

theorem keeps_of_createEpochContext {epochNumber : Word}
    (h : createEpochContext epochNumber = some context) : Keeps (some context) := by
  intro context' hcontext'
  cases hcontext'
  rw [(mem_createEpochContext h).2.1, h]

/-- A header is checked in the context of its epoch, whatever is kept. -/
theorem checkSeal_eq_some_iff (h : Keeps epochContext) {valid : Bool} :
    checkSeal epochContext header = some (valid, context) ↔
      createEpochContext (epochOf header) = some context ∧ Verifiable header ∧
        valid = decide (Sealed header) := by
  have hsome : checkSeal epochContext header = some (valid, context) ↔
      createEpochContext (epochOf header) = some context ∧
        ∃ result, verifyFull context (sealHash header) header.mixHash (sealNonce header)
          (getBoundaryFromDiff header.difficulty) = some result ∧ valid = decide (result = .ok) := by
    simp only [checkSeal, verifyFullAt, h.contextAt, Option.bind_eq_bind, Option.bind_eq_some_iff,
      Option.some.injEq, Prod.mk.injEq, Prod.exists]
    constructor
    · rintro ⟨_, _, ⟨_, hcreate, result, hverify, rfl, rfl⟩, rfl, rfl⟩
      exact ⟨hcreate, result, hverify, rfl⟩
    · rintro ⟨hcreate, result, hverify, rfl⟩
      exact ⟨result, context, ⟨context, hcreate, result, hverify, rfl, rfl⟩, rfl, rfl⟩
  rw [hsome]
  constructor
  · rintro ⟨hcreate, hverify⟩
    obtain ⟨hfull, hvalid⟩ := (verifyFull_iff hcreate).mp hverify
    exact ⟨hcreate, ⟨(mem_createEpochContext hcreate).1, hfull⟩, hvalid⟩
  · rintro ⟨hcreate, ⟨-, hfull⟩, hvalid⟩
    exact ⟨hcreate, (verifyFull_iff hcreate).mpr ⟨hfull, hvalid⟩⟩

theorem Verifiable.exists_context (h : Verifiable header) :
    ∃ context, createEpochContext (epochOf header) = some context := by
  rw [createEpochContext, dif_neg h.1]
  exact ⟨_, rfl⟩

/-- Over any headers, whichever epochs they belong to, the contexts that are kept and replaced give
the result of the epoch of each header, and the run is defined exactly if each of these is. -/
theorem checkSeals_eq_some_iff (headers : List BlockHeader) (results : List Bool) :
    checkSeals none headers = some results ↔ (∀ header ∈ headers, Verifiable header) ∧
      results = headers.map fun header => decide (Sealed header) := by
  have hall (epochContext : Option EpochContext) (h : Keeps epochContext) :
      checkSeals epochContext headers = some results ↔ (∀ header ∈ headers, Verifiable header) ∧
        results = headers.map fun header => decide (Sealed header) := by
    induction headers generalizing epochContext results with
    | nil => simp [checkSeals, eq_comm]
    | cons header headers ih =>
      rw [List.forall_mem_cons, List.map_cons]
      constructor
      · intro hseals
        obtain ⟨⟨valid, context⟩, hseal, hseals⟩ := Option.bind_eq_some_iff.mp hseals
        obtain ⟨results', hresults', heq⟩ := Option.bind_eq_some_iff.mp hseals
        obtain ⟨hcreate, hverifiable, rfl⟩ := (checkSeal_eq_some_iff h).mp hseal
        obtain ⟨hverifiable', rfl⟩ := (ih _ _ (keeps_of_createEpochContext hcreate)).mp hresults'
        cases heq
        exact ⟨⟨hverifiable, hverifiable'⟩, rfl⟩
      · rintro ⟨⟨hverifiable, hverifiable'⟩, rfl⟩
        obtain ⟨context, hcreate⟩ := hverifiable.exists_context
        have hseal := (checkSeal_eq_some_iff h).mpr ⟨hcreate, hverifiable, rfl⟩
        have hseals := (ih _ _ (keeps_of_createEpochContext hcreate)).mpr ⟨hverifiable', rfl⟩
        rw [checkSeals, hseal]
        exact Option.bind_eq_some_iff.mpr ⟨_, rfl, Option.bind_eq_some_iff.mpr ⟨_, hseals, rfl⟩⟩
  exact hall none nofun

/-- The sizes of an epoch are primes until the bounds wrap around. -/
theorem verifiable_of_lt (h : header.number.toNat < 65408 * kEpochLength) : Verifiable header := by
  have hepoch : (epochOf header).toNat < 65408 := by
    rw [epochOf, BitVec.toNat_ofNat]
    exact (Nat.mod_le _ _).trans_lt (Nat.div_lt_of_lt_mul (by rwa [Nat.mul_comm]))
  have hlight := (isGreatest_lightCacheNumItems hepoch).1.1
  have hfull := (isGreatest_fullDatasetNumItems hepoch).1.1
  constructor
  · intro hzero
    rw [hzero] at hlight
    exact Nat.not_prime_zero hlight
  · intro hzero
    rw [hzero] at hfull
    exact absurd hfull Nat.not_prime_zero

theorem smallNonce_of_le_one (h : header.difficulty.toNat ≤ 1) : SmallNonce header :=
  (mul_le_of_le_one_right (Nat.zero_le _) h).trans_lt (ofBigEndian_hash_lt _)

/-- The first block without a dataset. -/
example : ¬ Verifiable { number := 1962240000, difficulty := 1 } := by
  rintro ⟨-, hfull⟩
  have hepoch : epochOf { number := 1962240000, difficulty := 1 } = 65408 := by decide
  have hzero : calculateFullDatasetNumItems 65408 = 0 := rfl
  exact hfull (by rw [hepoch, hzero]) (smallNonce_of_le_one le_rfl)

end Seals

section Seeds

theorem seed_succ {n : Word} (h : n.toNat + 1 < 2 ^ 32) :
    calculateSeedFromEpoch (n + 1) = keccak256 (calculateSeedFromEpoch n).val := by
  have hsucc : (n + 1).toNat = n.toNat + 1 := by
    rw [BitVec.toNat_add]
    exact Nat.mod_eq_of_lt h
  rw [calculateSeedFromEpoch, hsucc, Function.iterate_succ_apply', calculateSeedFromEpoch]

/-- The cached seed is that of the cached epoch, which grows by at most one in each call. -/
def Sound (calls : ℕ) (cached : CachedEpoch) : Prop :=
  ∀ n, cached.number = some n →
    cached.seed = calculateSeedFromEpoch n ∧ n.toNat < kNumTries + calls

/-- An answer is an epoch with the seed. Without an answer no epoch among the tries has it. -/
structure Answers (seed : Bytes32) (found : ℕ → Prop) (answer : Option Word) : Prop where
  some : ∀ n, answer = some n → calculateSeedFromEpoch n = seed
  none : answer = none → ∀ n : Word, found n.toNat → calculateSeedFromEpoch n ≠ seed

theorem searchEpoch_spec {seed : Bytes32} {tries : ℕ} {i : Word} {cachedEpochSeed : Bytes32}
    (hseed : cachedEpochSeed = calculateSeedFromEpoch i) (hi : i.toNat + tries ≤ kNumTries) :
    Answers seed (fun n => i.toNat ≤ n ∧ n < i.toNat + tries)
      (searchEpoch seed tries i cachedEpochSeed).1 ∧
      Sound 0 (searchEpoch seed tries i cachedEpochSeed).2 := by
  induction tries generalizing i cachedEpochSeed with
  | zero =>
    refine ⟨⟨nofun, fun _ n hn => ?_⟩, nofun⟩
    omega
  | succ tries ih =>
    rw [searchEpoch]
    split_ifs with hfound
    · refine ⟨⟨fun n hn => ?_, nofun⟩, fun n hn => ?_⟩
      · cases hn
        rw [← hseed, hfound]
      · cases hn
        exact ⟨hseed, by omega⟩
    · have hlt : i.toNat + 1 < 2 ^ 32 := by
        change _ ≤ 30000 at hi
        omega
      have hsucc : (i + 1).toNat = i.toNat + 1 := by
        rw [BitVec.toNat_add]
        exact Nat.mod_eq_of_lt hlt
      have hnext : keccak256 cachedEpochSeed.val = calculateSeedFromEpoch (i + 1) := by
        rw [seed_succ hlt, hseed]
      obtain ⟨hanswers, hsound⟩ := ih hnext (by rw [hsucc]; omega)
      refine ⟨⟨hanswers.some, fun hnone n hn => ?_⟩, hsound⟩
      rcases Nat.lt_or_eq_of_le hn.1 with hless | heq
      · exact hanswers.none hnone n (by rw [hsucc]; omega)
      · rw [← BitVec.eq_of_toNat_eq heq, ← hseed]
        exact hfound

theorem calculateEpochFromSeed_spec {calls : ℕ} {cached : CachedEpoch} (h : Sound calls cached)
    (hcalls : kNumTries + calls < 2 ^ 32) (seed : Bytes32) :
    Answers seed (· < kNumTries) (calculateEpochFromSeed cached seed).1 ∧
      Sound (calls + 1) (calculateEpochFromSeed cached seed).2 := by
  have hsearch : Answers seed (· < kNumTries) (searchEpoch seed kNumTries 0 default).1 ∧
      Sound (calls + 1) (searchEpoch seed kNumTries 0 default).2 := by
    have hzero : (default : Bytes32) = calculateSeedFromEpoch 0 := rfl
    have hall : (0 : Word).toNat + kNumTries ≤ kNumTries := (Nat.zero_add _).le
    obtain ⟨hanswers, hsound⟩ := searchEpoch_spec hzero hall
    refine ⟨⟨hanswers.some, fun hnone n hn => ?_⟩, fun n hn => ?_⟩
    · exact hanswers.none hnone n ⟨Nat.zero_le _, (Nat.zero_add kNumTries).symm ▸ hn⟩
    · obtain ⟨hseed, hless⟩ := hsound n hn
      exact ⟨hseed, by omega⟩
  rw [calculateEpochFromSeed]
  split
  · rename_i number hnumber
    obtain ⟨hseed, hless⟩ := h number hnumber
    dsimp only
    split_ifs with hsame hnext
    · refine ⟨⟨fun n hn => ?_, nofun⟩, fun n hn => ?_⟩
      · cases hn
        rw [hsame, hseed]
      · obtain ⟨hseed', hless'⟩ := h n hn
        exact ⟨hseed', by omega⟩
    · have hlt : number.toNat + 1 < 2 ^ 32 := by omega
      have hsucc : (number + 1).toNat = number.toNat + 1 := by
        rw [BitVec.toNat_add]
        exact Nat.mod_eq_of_lt hlt
      refine ⟨⟨fun n hn => ?_, nofun⟩, fun n hn => ?_⟩
      · cases hn
        rw [seed_succ hlt, ← hseed, hnext]
      · cases hn
        rw [seed_succ hlt, ← hseed, hsucc]
        exact ⟨rfl, by omega⟩
    · exact hsearch
  · exact hsearch

theorem sound_afterSearches {seeds : List Bytes32} (h : kNumTries + seeds.length < 2 ^ 32) :
    Sound seeds.length (afterSearches seeds) := by
  induction seeds using List.reverseRecOn with
  | nil => exact nofun
  | append_singleton seeds seed ih =>
    rw [List.length_append, List.length_singleton] at h ⊢
    rw [afterSearches, List.foldl_concat]
    exact (calculateEpochFromSeed_spec (ih (by omega)) (by omega) seed).2

/-- The static variables never lead to a wrong epoch, and every epoch of the tries is found. -/
theorem answers_afterSearches (seeds : List Bytes32) (h : kNumTries + seeds.length < 2 ^ 32)
    (seed : Bytes32) :
    Answers seed (· < kNumTries) (calculateEpochFromSeed (afterSearches seeds) seed).1 :=
  (calculateEpochFromSeed_spec (sound_afterSearches h) h seed).1

theorem answers_afterSearches_next :
    Answers (keccak256 (List.replicate 32 0)) (· < kNumTries) (calculateEpochFromSeed
      (afterSearches [default]) (keccak256 (List.replicate 32 0))).1 :=
  answers_afterSearches [default] (by decide) _

end Seeds

end Silkworm.Ethash
