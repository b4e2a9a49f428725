import Silkworm.EtlCollector

/-!
# Loading the collected entries

Every file holds a sorted run of the collected entries and the buffer the rest. Reading gives
back what was written, so loading is a merge of the runs.
-/

namespace Silkworm.Etl
open BigEndian SortedTables RunMerging

section Order

/-- The entry does not come after the other one. -/
def NotAfter (e e' : Entry) : Prop := ¬Before e' e

instance (e e' : Entry) : Decidable (NotAfter e e') := inferInstanceAs (Decidable ¬_)

theorem notAfter_refl (e : Entry) : NotAfter e e := by
  intro h
  rcases h with h | ⟨-, h⟩ <;> exact List.lt_irrefl _ h

theorem notAfter_trans (e e' e'' : Entry) (h : NotAfter e e') (h' : NotAfter e' e'') :
    NotAfter e e'' := by
  intro hb
  by_cases heq : e' = e''
  · exact h (heq ▸ hb)
  · exact h ((before_of_not_before h' (Ne.symm heq)).trans hb)

theorem notAfter_antisymm (e e' : Entry) (h : NotAfter e e') (h' : NotAfter e' e) : e = e' := by
  by_contra hne
  exact h' (before_of_not_before h (Ne.symm hne))

theorem notAfter_total (e e' : Entry) : NotAfter e e' ∨ NotAfter e' e := by
  by_contra h
  obtain ⟨h, h'⟩ := not_or.mp h
  exact notAfter_refl e ((not_not.mp h').trans (not_not.mp h))

/-- The order in which entries are loaded. -/
def sortedEntries (es : List Entry) : List Entry := es.mergeSort fun e e' => !decide (Before e' e)

theorem sortedEntries_pairwise (es : List Entry) : (sortedEntries es).Pairwise NotAfter := by
  have hsorted : (sortedEntries es).Pairwise fun e e' => (!decide (Before e' e)) = true := by
    apply List.pairwise_mergeSort
    · intro a b c hab hbc
      simp only [Bool.not_eq_true', decide_eq_false_iff_not] at hab hbc ⊢
      exact notAfter_trans a b c hab hbc
    · intro a b
      simp only [Bool.or_eq_true, Bool.not_eq_true', decide_eq_false_iff_not]
      exact notAfter_total a b
  refine hsorted.imp fun h => ?_
  simp only [Bool.not_eq_true', decide_eq_false_iff_not] at h
  exact h

theorem sortedEntries_perm (es : List Entry) : (sortedEntries es).Perm es := List.mergeSort_perm _ _

/-- There is one way to sort entries. -/
theorem eq_sortedEntries {es out : List Entry} (hs : out.Pairwise NotAfter) (hp : out.Perm es) :
    out = sortedEntries es := by
  have hunique : ∀ a b, a ∈ out → b ∈ sortedEntries es → NotAfter a b → NotAfter b a → a = b :=
    fun a b _ _ h h' => notAfter_antisymm a b h h'
  exact List.Perm.eq_of_pairwise hunique hs (sortedEntries_pairwise es)
    (hp.trans (sortedEntries_perm es).symm)

end Order

section Files

/-- The lengths fit into the head of an entry, and the key is not empty. -/
def Storable (e : Entry) : Prop := e.1 ≠ [] ∧ e.1.length < 2 ^ 32 ∧ e.2.length < 2 ^ 32

instance (e : Entry) : Decidable (Storable e) := inferInstanceAs (Decidable (_ ∧ _))

theorem loadLength_storeLength {n : ℕ} (h : n < 2 ^ 32) : loadLength (storeLength n) = n := by
  simp only [storeLength, loadLength, List.foldr_cons, List.foldr_nil, UInt8.toNat_ofNat']
  omega

/-- A provider with a run of entries ahead. -/
def providing (i fileSize : ℕ) (run : List Entry) : FileProvider where
  id := i
  file := run.flatMap storeEntry
  fileSize := fileSize
  isOpen := true

theorem readEntry_nil {i fileSize : ℕ} (h : 0 < fileSize) :
    (providing i fileSize []).readEntry = .ok (none, (providing i fileSize []).reset) := by
  unfold FileProvider.readEntry
  rw [if_neg (by simp [providing]; omega), if_pos (by simp [providing])]

theorem readEntry_cons {i fileSize : ℕ} (h : 0 < fileSize) {e : Entry} (he : Storable e)
    (run : List Entry) : (providing i fileSize (e :: run)).readEntry =
      .ok (some (e, i), providing i fileSize run) := by
  obtain ⟨-, hkey, hvalue⟩ := he
  have hfile : (providing i fileSize (e :: run)).file =
      storeLength e.1.length ++ (storeLength e.2.length ++
        (e.1 ++ (e.2 ++ run.flatMap storeEntry))) := by
    simp only [providing, storeEntry, List.flatMap_cons, List.append_assoc]
  have hlength (n : ℕ) : (storeLength n).length = 4 := rfl
  have hlow : loadLength ((providing i fileSize (e :: run)).file.take 4) = e.1.length := by
    rw [hfile, List.take_left' (hlength _), loadLength_storeLength hkey]
  have hhigh : loadLength (((providing i fileSize (e :: run)).file.drop 4).take 4) = e.2.length := by
    rw [hfile, List.drop_left' (hlength _), List.take_left' (hlength _), loadLength_storeLength hvalue]
  have hdata : (providing i fileSize (e :: run)).file.drop 8 =
      e.1 ++ (e.2 ++ run.flatMap storeEntry) := by
    rw [hfile, ← List.append_assoc]
    exact List.drop_left' (by rw [List.length_append, hlength, hlength])
  have hopen : ¬((providing i fileSize (e :: run)).isOpen = false ∨
      (providing i fileSize (e :: run)).fileSize = 0) := by
    simp only [providing, Bool.true_eq_false, false_or]
    omega
  have hhead : ¬(providing i fileSize (e :: run)).file.length < 8 := by
    rw [hfile]
    simp only [List.length_append, hlength]
    omega
  have hrest : ¬(e.1 ++ (e.2 ++ run.flatMap storeEntry)).length < e.1.length + e.2.length := by
    simp only [List.length_append]
    omega
  unfold FileProvider.readEntry
  dsimp only
  rw [hlow, hhigh, hdata, if_neg hopen, if_neg hhead, if_neg hrest, List.take_left, List.drop_left,
    List.take_left, ← List.append_assoc, List.drop_left' (by rw [List.length_append])]
  rfl

end Files

section Runs

/-- The providers of runs that have not been read, from an index on. -/
def providersOf (k : ℕ) : List (List Entry) → List (Option FileProvider)
  | [] => []
  | run :: runs => some (FileProvider.flush { optimalSize := 0, entries := run } { id := k }) ::
      providersOf (k + 1) runs

theorem providersOf_append (k : ℕ) (runs : List (List Entry)) (run : List Entry) :
    providersOf k (runs ++ [run]) = providersOf k runs ++
      [some (FileProvider.flush { optimalSize := 0, entries := run } { id := k + runs.length })] := by
  induction runs generalizing k with
  | nil => rfl
  | cons r rs ih =>
    rw [List.cons_append, providersOf, providersOf, ih, List.length_cons, List.cons_append,
      Nat.add_right_comm, Nat.add_assoc]

theorem length_providersOf (k : ℕ) (runs : List (List Entry)) :
    (providersOf k runs).length = runs.length := by
  induction runs generalizing k with
  | nil => rfl
  | cons run runs ih => rw [providersOf, List.length_cons, List.length_cons, ih]

/-- The collector has spilled sorted runs to files, and the rest is in the buffer. -/
structure Holds (c : Collector) (xs : List Entry) (runs : List (List Entry)) : Prop where
  providers : c.fileProviders = providersOf 0 runs
  nonempty : ∀ run ∈ runs, run ≠ []
  sorted : ∀ run ∈ runs, run.Pairwise NotAfter
  perm : (runs.flatten ++ c.buffer.entries).Perm xs
  size : c.size = xs.length

variable {c : Collector} {xs : List Entry} {runs : List (List Entry)}

/-- Without data there are no entries. -/
theorem entries_eq_nil_of_size (hx : ∀ e ∈ c.buffer.entries, Storable e) (h : c.buffer.size = 0) :
    c.buffer.entries = [] := by
  cases he : c.buffer.entries with
  | nil => rfl
  | cons e es =>
    rw [Buffer.size, he, List.map_cons, List.sum_cons] at h
    have hkey := (hx e (he ▸ List.mem_cons_self)).1
    have hpos := List.length_pos_of_ne_nil hkey
    omega

theorem Holds.flushBuffer (h : Holds c xs runs) (hx : ∀ e ∈ xs, Storable e) :
    ∃ runs', Holds c.flushBuffer xs runs' ∧ c.flushBuffer.buffer.entries = [] ∧
      (runs ≠ [] → runs' ≠ []) := by
  have hbuffer (e : Entry) (he : e ∈ c.buffer.entries) : Storable e :=
    hx e (h.perm.mem_iff.mp (List.mem_append_right _ he))
  unfold Collector.flushBuffer
  split_ifs with hs
  · refine ⟨runs ++ [sortedEntries c.buffer.entries], ?_, rfl, by simp⟩
    have hperm := sortedEntries_perm c.buffer.entries
    have hne : c.buffer.entries ≠ [] := by
      intro he
      rw [Buffer.size, he] at hs
      exact hs rfl
    constructor
    · rw [providersOf_append, h.providers, length_providersOf, Nat.zero_add]
      rfl
    · intro run hrun
      rcases List.mem_append.mp hrun with hrun | hrun
      · exact h.nonempty run hrun
      · rw [List.mem_singleton.mp hrun]
        intro hnil
        rw [hnil] at hperm
        exact hne hperm.symm.eq_nil
    · intro run hrun
      rcases List.mem_append.mp hrun with hrun | hrun
      · exact h.sorted run hrun
      · rw [List.mem_singleton.mp hrun]
        exact sortedEntries_pairwise _
    · rw [List.flatten_append, List.flatten_singleton]
      change (runs.flatten ++ sortedEntries c.buffer.entries ++ []).Perm xs
      rw [List.append_nil]
      exact (hperm.append_left _).trans h.perm
    · exact h.size
  · exact ⟨runs, h, entries_eq_nil_of_size hbuffer (not_not.mp hs), id⟩

theorem Holds.collect (h : Holds c xs runs) {e : Entry} (hx : ∀ x ∈ xs ++ [e], Storable x) :
    ∃ runs', Holds (c.collect e) (xs ++ [e]) runs' := by
  have hput : Holds { c with buffer := c.buffer.put e, size := c.size + 1 } (xs ++ [e]) runs := by
    refine ⟨h.providers, h.nonempty, h.sorted, ?_, ?_⟩
    · change (runs.flatten ++ (c.buffer.entries ++ [e])).Perm (xs ++ [e])
      rw [← List.append_assoc]
      exact h.perm.append_right [e]
    · rw [List.length_append, ← h.size]
      rfl
  unfold Collector.collect
  dsimp only
  split_ifs
  · obtain ⟨runs', hruns, -, -⟩ := hput.flushBuffer hx
    exact ⟨runs', hruns⟩
  · exact ⟨runs, hput⟩

theorem holds_init (optimalSize : ℕ) : Holds (.init optimalSize) [] [] :=
  ⟨rfl, nofun, nofun, .nil, rfl⟩

/-- Everything that is collected is held. -/
theorem holds_collectAll (optimalSize : ℕ) (hx : ∀ e ∈ xs, Storable e) :
    ∃ runs, Holds (xs.foldl (fun c e => c.collect e) (.init optimalSize)) xs runs := by
  induction xs using List.reverseRecOn with
  | nil => exact ⟨[], holds_init optimalSize⟩
  | append_singleton xs e ih =>
    obtain ⟨runs, hruns⟩ := ih fun x hxs => hx x (List.mem_append_left _ hxs)
    rw [List.foldl_append]
    exact hruns.collect hx

end Runs

section Merging

/-- The first entries of runs, from an index on. -/
def headsOf (k : ℕ) : List (List Entry) → List (Entry × ℕ)
  | [] => []
  | run :: runs => run.head?.toList.map (fun e => (e, k)) ++ headsOf (k + 1) runs

/-- The providers after their first entries have been read. -/
def tailsOf (k : ℕ) : List (List Entry) → List (Option FileProvider)
  | [] => []
  | run :: runs =>
    some (providing k ((Buffer.size { optimalSize := 0, entries := run }) + run.length * 8) run.tail) ::
      tailsOf (k + 1) runs

theorem fillQueue_providersOf {runs : List (List Entry)} (hne : ∀ run ∈ runs, run ≠ [])
    (hx : ∀ run ∈ runs, ∀ e ∈ run, Storable e) (k : ℕ) :
    Collector.fillQueue (providersOf k runs) = .ok (headsOf k runs, tailsOf k runs) := by
  induction runs generalizing k with
  | nil => rfl
  | cons run runs ih =>
    have hrest := ih (fun r hr => hne r (List.mem_cons_of_mem _ hr))
      (fun r hr => hx r (List.mem_cons_of_mem _ hr)) (k + 1)
    cases hrun : run with
    | nil => exact absurd hrun (hne run List.mem_cons_self)
    | cons e es =>
      have he : Storable e := hx run List.mem_cons_self e (hrun ▸ List.mem_cons_self)
      have hread : (FileProvider.flush { optimalSize := 0, entries := e :: es } { id := k }).readEntry =
          .ok (some (e, k), providing k (Buffer.size { optimalSize := 0, entries := e :: es } +
            (e :: es).length * 8) es) :=
        readEntry_cons (by simp only [List.length_cons]; omega) he es
      rw [providersOf, Collector.fillQueue, hread, hrest]
      rfl

theorem getElem?_tailsOf {runs : List (List Entry)} {i : ℕ} {run : List Entry}
    (h : runs[i]? = some run) (k : ℕ) :
    (tailsOf k runs)[i]? = some (some (providing (k + i)
      ((Buffer.size { optimalSize := 0, entries := run }) + run.length * 8) run.tail)) := by
  induction runs generalizing i k with
  | nil => cases h
  | cons r rs ih =>
    cases i with
    | zero =>
      cases h
      rfl
    | succ i =>
      rw [tailsOf, List.getElem?_cons_succ, ih (by simpa using h), Nat.add_right_comm, Nat.add_assoc]

theorem mem_headsOf {runs : List (List Entry)} {x : Entry × ℕ} {k : ℕ} (h : x ∈ headsOf k runs) :
    ∃ i run, x.2 = k + i ∧ runs[i]? = some run ∧ run = x.1 :: run.tail := by
  induction runs generalizing k with
  | nil => cases h
  | cons r rs ih =>
    rw [headsOf] at h
    rcases List.mem_append.mp h with h | h
    · cases r with
      | nil => cases h
      | cons e es =>
        rw [List.head?_cons, Option.toList_some, List.map_singleton, List.mem_singleton] at h
        subst h
        exact ⟨0, e :: es, rfl, rfl, rfl⟩
    · obtain ⟨i, run, hx, hi, hrun⟩ := ih h
      exact ⟨i + 1, run, by omega, by simpa using hi, hrun⟩

theorem nodup_headsOf (runs : List (List Entry)) (k : ℕ) :
    ((headsOf k runs).map Prod.snd).Nodup := by
  induction runs generalizing k with
  | nil => exact List.nodup_nil
  | cons r rs ih =>
    rw [headsOf, List.map_append]
    refine List.Nodup.append ?_ (ih (k + 1)) ?_
    · cases r with
      | nil => exact List.nodup_nil
      | cons e es => exact List.nodup_singleton k
    · intro j hj hj'
      obtain ⟨x, hx, rfl⟩ := List.mem_map.mp hj'
      obtain ⟨i, -, hi, -, -⟩ := mem_headsOf hx
      have hk : x.2 = k := by
        cases r with
        | nil => cases hj
        | cons e es => simpa using hj
      omega

/-- The state of the merge after the first entries have been read. -/
def initialState (runs : List (List Entry)) : State Entry ℕ where
  queue := headsOf 0 runs
  runs i := ((runs[i]?).getD []).tail

theorem runs_initialState {runs : List (List Entry)} {i : ℕ} {run : List Entry}
    (h : runs[i]? = some run) : (initialState runs).runs i = run.tail := by
  change ((runs[i]?).getD []).tail = run.tail
  rw [h]
  rfl

theorem contents_initialState {runs : List (List Entry)} (hne : ∀ run ∈ runs, run ≠ []) :
    (initialState runs).contents = runs.flatten := by
  have hfrom (rs : List (List Entry)) (f : ℕ → List Entry) (k : ℕ) (hne : ∀ run ∈ rs, run ≠ [])
      (hf : ∀ i run, rs[i]? = some run → f (k + i) = run.tail) :
      ((headsOf k rs).flatMap fun x => x.1 :: f x.2) = rs.flatten := by
    induction rs generalizing k with
    | nil => rfl
    | cons r rs ih =>
      cases hr : r with
      | nil => exact absurd hr (hne r List.mem_cons_self)
      | cons e es =>
        have hfirst : f k = es := by
          rw [← Nat.add_zero k, hf 0 r rfl, hr]
          rfl
        have hrest := ih (k + 1) (fun run hrun => hne run (List.mem_cons_of_mem _ hrun))
          (fun i run hi => by
            rw [Nat.add_right_comm, Nat.add_assoc]
            exact hf (i + 1) run (by simpa using hi))
        rw [headsOf, List.flatMap_append, hrest, List.flatten_cons]
        simp [hfirst]
  refine hfrom runs _ 0 hne fun i run hi => ?_
  rw [Nat.zero_add]
  exact runs_initialState hi

theorem sorted_initialState {runs : List (List Entry)} (hs : ∀ run ∈ runs, run.Pairwise NotAfter) :
    (initialState runs).Sorted NotAfter := by
  refine ⟨nodup_headsOf runs 0, fun x hx => ?_⟩
  obtain ⟨i, run, hxi, hi, hrun⟩ := mem_headsOf hx
  have htail : (initialState runs).runs x.2 = run.tail := by
    rw [hxi, Nat.zero_add]
    exact runs_initialState hi
  rw [htail, ← hrun]
  exact hs run (List.mem_of_getElem? hi)

/-- The providers have the runs of the state ahead. -/
structure Provides (providers : List (Option FileProvider)) (s : State Entry ℕ) : Prop where
  provider : ∀ x ∈ s.queue, ∃ fileSize, 0 < fileSize ∧
    providers[x.2]? = some (some (providing x.2 fileSize (s.runs x.2)))
  storable : ∀ x ∈ s.queue, ∀ e ∈ s.runs x.2, Storable e

theorem provides_initialState {runs : List (List Entry)} (hne : ∀ run ∈ runs, run ≠ [])
    (hx : ∀ run ∈ runs, ∀ e ∈ run, Storable e) : Provides (tailsOf 0 runs) (initialState runs) := by
  constructor
  · intro x hxq
    obtain ⟨i, run, hxi, hi, -⟩ := mem_headsOf hxq
    rw [Nat.zero_add] at hxi
    have hpos := List.length_pos_of_ne_nil (hne run (List.mem_of_getElem? hi))
    refine ⟨Buffer.size { optimalSize := 0, entries := run } + run.length * 8, by omega, ?_⟩
    rw [hxi, getElem?_tailsOf hi 0, runs_initialState hi, Nat.zero_add]
  · intro x hxq e he
    obtain ⟨i, run, hxi, hi, -⟩ := mem_headsOf hxq
    rw [hxi, Nat.zero_add, runs_initialState hi] at he
    exact hx run (List.mem_of_getElem? hi) e (List.mem_of_mem_tail he)

variable {providers : List (Option FileProvider)} {s : State Entry ℕ} {x : Entry × ℕ}

/-- A round keeps the providers in step with the merge. -/
theorem Provides.replace (h : Provides providers s) (hs : s.Sorted NotAfter) (hx : x ∈ s.queue)
    {p : Option FileProvider}
    (hp : ∀ y ys, s.runs x.2 = y :: ys → ∃ fileSize, 0 < fileSize ∧ p = some (providing x.2 fileSize ys)) :
    Provides (providers.set x.2 p) (s.replace x) := by
  obtain ⟨fileSize, -, hprovider⟩ := h.provider x hx
  have hlt : x.2 < providers.length := (List.getElem?_eq_some_iff.mp hprovider).1
  have hothers (y : Entry × ℕ) (hy : y ∈ s.queue.erase x) :
      y.2 ≠ x.2 ∧ (s.replace x).runs y.2 = s.runs y.2 := by
    have hne := snd_ne_of_mem_erase hs.nodup hx hy
    exact ⟨hne, by rw [State.runs_replace, Function.update_of_ne hne]⟩
  have hqueue (y : Entry × ℕ) (hy : y ∈ (s.replace x).queue) :
      y ∈ s.queue.erase x ∨ ∃ e es, s.runs x.2 = e :: es ∧ y = (e, x.2) := by
    rw [State.replace] at hy
    cases hr : s.runs x.2 with
    | nil =>
      simp only [hr] at hy
      exact .inl hy
    | cons e es =>
      simp only [hr] at hy
      rcases List.mem_cons.mp hy with rfl | hy
      · exact .inr ⟨e, es, rfl, rfl⟩
      · exact .inl hy
  have hself (e : Entry) (es : List Entry) (hr : s.runs x.2 = e :: es) : (s.replace x).runs x.2 = es := by
    rw [State.runs_replace, Function.update_self, hr, List.tail_cons]
  constructor
  · intro y hy
    rcases hqueue y hy with hy | ⟨e, es, hr, rfl⟩
    · obtain ⟨hne, hsame⟩ := hothers y hy
      rw [List.getElem?_set_ne hne.symm, hsame]
      exact h.provider y (List.mem_of_mem_erase hy)
    · obtain ⟨fileSize, hpos, rfl⟩ := hp e es hr
      refine ⟨fileSize, hpos, ?_⟩
      rw [List.getElem?_set_self hlt, hself e es hr]
  · intro y hy
    rcases hqueue y hy with hy | ⟨e, es, hr, rfl⟩
    · rw [(hothers y hy).2]
      exact h.storable y (List.mem_of_mem_erase hy)
    · rw [hself e es hr]
      intro e' he'
      exact h.storable x hx e' (hr ▸ List.mem_cons_of_mem _ he')

/-- The loop merges the runs of its providers. -/
theorem mergeLoop_merges {T : Type} (pq : PriorityQueue) (loadFunc : Entry → T → T) {fuel : ℕ}
    (h : Provides providers s) (hs : s.Sorted NotAfter) (hf : s.contents.length ≤ fuel) (table : T) :
    ∃ out providers', Merges NotAfter s out ∧
      Collector.mergeLoop pq loadFunc fuel s.queue providers table =
        .ok (out.foldl (fun table e => loadFunc e table) table, providers') := by
  induction fuel generalizing s providers table with
  | zero =>
    have hempty : s.queue = [] := by
      cases hq : s.queue with
      | nil => rfl
      | cons y ys => simp [State.contents, hq] at hf
    exact ⟨[], providers, .nil hempty, by rw [Collector.mergeLoop, if_pos hempty]; rfl⟩
  | succ fuel ih =>
    rw [Collector.mergeLoop]
    cases htop : pq.top s.queue with
    | none =>
      have hempty : s.queue = [] := by
        by_contra hne
        have := pq.isSome s.queue hne
        rw [htop] at this
        cases this
      exact ⟨[], providers, .nil hempty, rfl⟩
    | some x =>
      have hx := pq.mem s.queue x htop
      have hmin := pq.smallest s.queue x htop
      obtain ⟨fileSize, hpos, hprovider⟩ := h.provider x hx
      have hlength := (State.contents_perm hs.nodup hx).length_eq
      rw [List.length_cons] at hlength
      dsimp only
      rw [Collector.readFrom, hprovider]
      dsimp only
      cases hr : s.runs x.2 with
      | nil =>
        rw [readEntry_nil hpos]
        have hqueue : (s.replace x).queue = s.queue.erase x := by simp only [State.replace, hr]
        have hnext : ∀ y ys, s.runs x.2 = y :: ys → ∃ fileSize', 0 < fileSize' ∧
            none = some (providing x.2 fileSize' ys) := by
          intro y ys hnil
          rw [hr] at hnil
          cases hnil
        obtain ⟨out, providers', hmerges, hloop⟩ := ih
          (h.replace hs hx hnext) (hs.replace hx) (by omega)
          (loadFunc x.1 table)
        rw [hqueue] at hloop
        exact ⟨x.1 :: out, providers', .cons hx hmin hmerges, hloop⟩
      | cons e es =>
        rw [readEntry_cons hpos (h.storable x hx e (hr ▸ List.mem_cons_self)) es]
        have hqueue : (s.replace x).queue = (e, x.2) :: s.queue.erase x := by
          simp only [State.replace, hr]
        have hnext : ∀ y ys, s.runs x.2 = y :: ys → ∃ fileSize', 0 < fileSize' ∧
            some (providing x.2 fileSize es) = some (providing x.2 fileSize' ys) := by
          intro y ys hy
          rw [hr] at hy
          cases hy
          exact ⟨fileSize, hpos, rfl⟩
        obtain ⟨out, providers', hmerges, hloop⟩ := ih (h.replace hs hx hnext) (hs.replace hx)
          (by omega) (loadFunc x.1 table)
        rw [hqueue] at hloop
        exact ⟨x.1 :: out, providers', .cons hx hmin hmerges, hloop⟩

/-- An entry takes more than one byte of a file. -/
theorem length_le_flatMap_storeEntry (run : List Entry) :
    run.length ≤ (run.flatMap storeEntry).length := by
  induction run with
  | nil => exact Nat.zero_le _
  | cons e es ih =>
    rw [List.flatMap_cons, List.length_append, List.length_cons]
    have : 4 ≤ (storeEntry e).length := by
      rw [storeEntry, List.length_append]
      exact Nat.le_add_right 4 _
    omega

/-- The fuel of the loop is enough. -/
theorem length_flatten_le {runs : List (List Entry)} (k : ℕ) :
    runs.flatten.length ≤ (headsOf k runs).length + Collector.fileLengths (tailsOf k runs) := by
  induction runs generalizing k with
  | nil => exact Nat.zero_le _
  | cons run runs ih =>
    have hrest := ih (k + 1)
    have htail : Collector.fileLengths (tailsOf k (run :: runs)) =
        (run.tail.flatMap storeEntry).length + Collector.fileLengths (tailsOf (k + 1) runs) := by
      rw [tailsOf, Collector.fileLengths, List.map_cons, List.sum_cons]
      rfl
    have hrun := length_le_flatMap_storeEntry run.tail
    rw [List.flatten_cons, List.length_append, htail, headsOf, List.length_append]
    cases run with
    | nil => simpa using hrest
    | cons e es =>
      simp only [List.head?_cons, Option.toList_some, List.map_singleton, List.length_cons,
        List.tail_cons] at hrun ⊢
      omega

end Merging

section Loading

variable {T : Type} {xs : List Entry}

/-- However the entries are spread over files, they come out in the one sorted order. -/
theorem Holds.load {c : Collector} {runs : List (List Entry)} (h : Holds c xs runs)
    (hx : ∀ e ∈ xs, Storable e) (pq : PriorityQueue) (loadFunc : Entry → T → T) (table : T) :
    ∃ c', c.load pq loadFunc table =
      .ok ((sortedEntries xs).foldl (fun table e => loadFunc e table) table, c') := by
  unfold Collector.load
  by_cases hsize : c.size = 0
  · rw [if_pos hsize]
    rw [h.size] at hsize
    have hnil : sortedEntries xs = [] := by
      rw [List.eq_nil_of_length_eq_zero hsize]
      exact List.mergeSort_nil
    rw [hnil]
    exact ⟨c, rfl⟩
  rw [if_neg hsize]
  by_cases hfiles : c.fileProviders = []
  · rw [if_pos hfiles]
    have hruns : runs = [] := by
      have hlength := congrArg List.length h.providers
      rw [hfiles, length_providersOf] at hlength
      exact List.eq_nil_of_length_eq_zero hlength.symm
    have hperm := h.perm
    rw [hruns, List.flatten_nil, List.nil_append] at hperm
    have hsort : sortedEntries c.buffer.entries = sortedEntries xs :=
      eq_sortedEntries (sortedEntries_pairwise _) ((sortedEntries_perm _).trans hperm)
    refine ⟨{ c with buffer := c.buffer.sort.clear }, ?_⟩
    rw [← hsort]
    rfl
  · rw [if_neg hfiles]
    obtain ⟨runs', h', hbuffer, -⟩ := h.flushBuffer hx
    have hperm := h'.perm
    rw [hbuffer, List.append_nil] at hperm
    have hstorable : ∀ run ∈ runs', ∀ e ∈ run, Storable e := fun run hrun e he =>
      hx e (hperm.mem_iff.mp (List.mem_flatten.mpr ⟨run, hrun, he⟩))
    have hsorted := sorted_initialState h'.sorted
    have hcontents := contents_initialState h'.nonempty
    have hfuel : (initialState runs').contents.length ≤
        (headsOf 0 runs').length + Collector.fileLengths (tailsOf 0 runs') := by
      rw [hcontents]
      exact length_flatten_le 0
    obtain ⟨out, providers, hmerges, hloop⟩ := mergeLoop_merges pq loadFunc
      (provides_initialState h'.nonempty hstorable) hsorted hfuel table
    obtain ⟨hpairwise, hout⟩ := hmerges.sorted_perm notAfter_refl notAfter_trans hsorted
    have heq := eq_sortedEntries hpairwise (hout.trans (hcontents ▸ hperm))
    refine ⟨{ c.flushBuffer with fileProviders := providers, size := 0 }, ?_⟩
    dsimp only
    rw [h'.providers, fillQueue_providersOf h'.nonempty hstorable 0]
    change (Collector.mergeLoop pq loadFunc
      ((headsOf 0 runs').length + Collector.fileLengths (tailsOf 0 runs')) (initialState runs').queue
      (tailsOf 0 runs') table >>= fun merged =>
        Except.ok (merged.1, { c.flushBuffer with fileProviders := merged.2, size := 0 })) = _
    rw [hloop, heq]
    rfl

/-- Whatever is collected is loaded in order. -/
theorem load_collectAll (pq : PriorityQueue) (optimalSize : ℕ) (loadFunc : Entry → T → T)
    (table : T) (hx : ∀ e ∈ xs, Storable e) :
    (∃ c, (xs.foldl (fun c e => c.collect e) (Collector.init optimalSize)).load pq loadFunc table =
      .ok ((sortedEntries xs).foldl (fun table e => loadFunc e table) table, c)) ∧
    (sortedEntries xs).Perm xs ∧ (sortedEntries xs).Pairwise fun e e' => ¬Before e' e := by
  obtain ⟨runs, h⟩ := holds_collectAll optimalSize hx
  exact ⟨h.load hx pq loadFunc table, sortedEntries_perm xs, sortedEntries_pairwise xs⟩

theorem exists_smallest {q : List (Entry × ℕ)} (hq : q ≠ []) :
    ∃ x ∈ q, ∀ y ∈ q, ¬Before y.1 x.1 := by
  induction q with
  | nil => exact absurd rfl hq
  | cons x q ih =>
    by_cases hnil : q = []
    · subst hnil
      refine ⟨x, List.mem_cons_self, fun y hy => ?_⟩
      rw [List.mem_singleton.mp hy]
      exact notAfter_refl x.1
    obtain ⟨z, hz, hmin⟩ := ih hnil
    rcases notAfter_total x.1 z.1 with hx | hx
    · refine ⟨x, List.mem_cons_self, fun y hy => ?_⟩
      rcases List.mem_cons.mp hy with rfl | hy
      · exact notAfter_refl _
      · exact notAfter_trans x.1 z.1 y.1 hx (hmin y hy)
    · refine ⟨z, List.mem_cons_of_mem _ hz, fun y hy => ?_⟩
      rcases List.mem_cons.mp hy with rfl | hy
      · exact hx
      · exact hmin y hy

/-- Of several smallest elements the first one is on top. -/
def firstSmallest : PriorityQueue where
  top q := q.find? fun x => q.all fun y => ¬Before y.1 x.1
  mem _ _ h := List.mem_of_find?_eq_some h
  isSome q hq := by
    obtain ⟨x, hx, hmin⟩ := exists_smallest hq
    exact List.find?_isSome.mpr ⟨x, hx, by simpa using hmin⟩
  smallest q x h := by simpa using List.find?_some h

/-- Three entries, of which two are in files. -/
theorem load_collectAll_spilled :
    let xs : List Entry := [([2], [1]), ([1], [9]), ([1], [])]
    let c := xs.foldl (fun c e => c.collect e) (Collector.init 2)
    c.fileProviders.length = 2 ∧ c.buffer.entries.length = 1 ∧
    ∃ c', c.load firstSmallest (fun e es => es ++ [e]) [] = .ok ([([1], []), ([1], [9]), ([2], [1])], c') := by
  intro xs c
  refine ⟨rfl, rfl, ?_⟩
  have hx : ∀ e ∈ xs, Storable e := by decide
  obtain ⟨⟨c', hload⟩, -, -⟩ :=
    load_collectAll firstSmallest 2 (fun e es => es ++ [e]) ([] : List Entry) hx
  have hout : sortedEntries xs = [([1], []), ([1], [9]), ([2], [1])] :=
    (eq_sortedEntries (by decide) (by decide)).symm
  rw [hout] at hload
  exact ⟨c', hload⟩

end Loading

end Silkworm.Etl
