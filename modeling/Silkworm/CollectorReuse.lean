import Silkworm.CollectedEntries

/-!
# Collecting again after a load

A collector that has loaded entries is not like a new one. Loaded from memory, it goes on counting
the old entries; loaded from files, it goes on reading the providers of files that are gone.
-/

namespace Silkworm.Etl
open SortedTables

namespace Collector

section Uses

/-- What can be done with a collector. -/
inductive Use
  | collect (e : Entry)
  | load

variable (pq : PriorityQueue)

/-- A load that lists the entries. -/
def emit (c : Collector) : Except EtlError (List Entry × Collector) :=
  c.load pq (fun e es => es ++ [e]) []

def use (c : Collector) : Use → Except EtlError Collector
  | .collect e => .ok (c.collect e)
  | .load => (c.emit pq).map Prod.snd

def collectAll (c : Collector) (es : List Entry) : Collector := es.foldl (fun c e => c.collect e) c

/-- What is collected next is loaded as from a new collector, in order and without the old entries. -/
structure Reusable (optimalSize : ℕ) (c : Collector) : Prop where
  size : c.size = 0
  fresh : ∀ es, ((c.collectAll es).emit pq).map Prod.fst =
    (((init optimalSize).collectAll es).emit pq).map Prod.fst
  sorted : ∀ es, (∀ e ∈ es, Storable e) →
    ((c.collectAll es).emit pq).map Prod.fst = .ok (sortedEntries es)

end Uses

section Providers

variable {c c' : Collector} {providers providers' : List (Option FileProvider)}
  {queue : List (Entry × ℕ)}

/-- The first provider is closed, unless an entry of it is in the queue. -/
def Served (queue : List (Entry × ℕ)) (providers : List (Option FileProvider)) : Prop :=
  ∀ p, providers[0]? = some (some p) → p.id = 0 ∧ (p.isOpen = false ∨ ∃ x ∈ queue, x.2 = 0)

theorem readEntry_eq_ok {p p' : FileProvider} {item : Option (Entry × ℕ)}
    (h : p.readEntry = .ok (item, p')) :
    p'.id = p.id ∧ (item = none ∧ p'.isOpen = false ∨ ∃ e, item = some (e, p.id)) := by
  rw [FileProvider.readEntry] at h
  split_ifs at h with hopen hend
  · cases h
    exact ⟨rfl, .inl ⟨rfl, rfl⟩⟩
  · dsimp only at h
    split_ifs at h
    cases h
    exact ⟨rfl, .inr ⟨_, rfl⟩⟩

theorem of_bind_eq_ok {α β : Type} {x : Except EtlError α} {f : α → Except EtlError β} {b : β}
    (h : x >>= f = .ok b) : ∃ a, x = .ok a ∧ f a = .ok b := by
  cases x with
  | error err => cases h
  | ok a => exact ⟨a, rfl, h⟩

theorem fillQueue_served (hid : ∀ p, providers[0]? = some (some p) → p.id = 0)
    (h : fillQueue providers = .ok (queue, providers')) :
    Served queue providers' ∧ (providers ≠ [] → providers' ≠ []) := by
  cases providers with
  | nil =>
    cases h
    exact ⟨nofun, id⟩
  | cons provider ps =>
    cases provider with
    | none => cases h
    | some p =>
      obtain ⟨⟨item, p'⟩, hp, h⟩ := of_bind_eq_ok h
      obtain ⟨⟨queue', ps'⟩, -, h⟩ := of_bind_eq_ok h
      cases h
      refine ⟨fun q hq => ?_, fun _ => List.cons_ne_nil _ _⟩
      cases hq
      obtain ⟨hsame, hitem⟩ := readEntry_eq_ok hp
      have hzero : p.id = 0 := hid p rfl
      refine ⟨hsame.trans hzero, ?_⟩
      rcases hitem with ⟨-, hclosed⟩ | ⟨e, he⟩
      · exact .inl hclosed
      · exact .inr ⟨(e, p.id), by simp [he], hzero⟩

theorem readFrom_eq_ok {i : ℕ} {next : Option (Entry × ℕ)} {p' : FileProvider}
    (h : readFrom providers i = .ok (next, p')) :
    ∃ p, providers[i]? = some (some p) ∧ p.readEntry = .ok (next, p') := by
  rw [readFrom] at h
  split at h
  next p hp => exact ⟨p, hp, h⟩
  next => cases h

/-- The provider that has served an entry is read again, or given up at its end. -/
theorem Served.next {x : Entry × ℕ} {next : Option (Entry × ℕ)} {p' : FileProvider}
    (hs : Served queue providers) (h : readFrom providers x.2 = .ok (next, p')) :
    Served (next.toList ++ queue.erase x)
      (providers.set x.2 (next.bind fun _ => some p')) := by
  obtain ⟨p, hp, hread⟩ := readFrom_eq_ok h
  obtain ⟨hsame, hitem⟩ := readEntry_eq_ok hread
  intro q hq
  rw [List.getElem?_set] at hq
  split_ifs at hq with hzero hlt
  · rcases hitem with ⟨rfl, -⟩ | ⟨e, rfl⟩
    · cases hq
    · cases hq
      have hid : p.id = 0 := (hs p (hzero ▸ hp)).1
      exact ⟨hsame.trans hid, .inr ⟨(e, p.id), List.mem_cons_self, hid⟩⟩
  · obtain ⟨hid, hclosed | ⟨y, hy, hyzero⟩⟩ := hs q hq
    · exact ⟨hid, .inl hclosed⟩
    · have hne : y ≠ x := fun heq => hzero (heq ▸ hyzero)
      exact ⟨hid, .inr ⟨y, List.mem_append_right _ ((List.mem_erase_of_ne hne).mpr hy), hyzero⟩⟩

/-- The loop ends when nothing is left of any provider, so that the first one has been closed. -/
theorem mergeLoop_served {T : Type} (pq : PriorityQueue) (loadFunc : Entry → T → T) {fuel : ℕ}
    {table table' : T} (hs : Served queue providers)
    (h : mergeLoop pq loadFunc fuel queue providers table = .ok (table', providers')) :
    Served [] providers' ∧ (providers ≠ [] → providers' ≠ []) := by
  induction fuel generalizing queue providers table with
  | zero =>
    rw [mergeLoop] at h
    split_ifs at h with hnil
    cases h
    exact ⟨hnil ▸ hs, id⟩
  | succ fuel ih =>
    rw [mergeLoop] at h
    cases htop : pq.top queue with
    | none =>
      rw [htop] at h
      cases h
      have hnil : queue = [] := by
        by_contra hne
        simpa [htop] using pq.isSome queue hne
      exact ⟨hnil ▸ hs, id⟩
    | some x =>
      rw [htop] at h
      obtain ⟨⟨next, p'⟩, hread, h⟩ := of_bind_eq_ok h
      have hnext := hs.next hread
      have hne {p : Option FileProvider} (h : providers ≠ []) : providers.set x.2 p ≠ [] :=
        fun hnil => h (by simpa using hnil)
      cases next with
      | none =>
        obtain ⟨hserved, hlen⟩ := ih hnext h
        exact ⟨hserved, fun h => hlen (hne h)⟩
      | some item =>
        obtain ⟨hserved, hlen⟩ := ih hnext h
        exact ⟨hserved, fun h => hlen (hne h)⟩

end Providers

section Collectors

variable {pq : PriorityQueue} {optimalSize : ℕ} {c c' : Collector}

/-- Something has been collected: it is counted, or there was a file, of which nothing is left. -/
structure Used (c : Collector) : Prop where
  collected : c.size ≠ 0 ∨ c.fileProviders ≠ []
  id : ∀ p, c.fileProviders[0]? = some (some p) → p.id = 0
  served : c.size = 0 → Served [] c.fileProviders

theorem size_flushBuffer (c : Collector) : c.flushBuffer.size = c.size := by
  rw [flushBuffer]
  split_ifs <;> rfl

/-- The first provider stays the first one. -/
theorem getElem?_flushBuffer (h : c.fileProviders ≠ []) :
    c.flushBuffer.fileProviders[0]? = c.fileProviders[0]? := by
  rw [flushBuffer]
  split_ifs
  · exact List.getElem?_append_left (List.length_pos_of_ne_nil h)
  · rfl

theorem ne_nil_of_getElem? {α : Type} {l l' : List α} (h : l'[0]? = l[0]?) (hne : l ≠ []) :
    l' ≠ [] := by
  intro hnil
  rw [hnil, List.getElem?_nil, eq_comm, List.getElem?_eq_none_iff] at h
  exact hne (List.eq_nil_of_length_eq_zero (Nat.le_zero.mp h))

theorem id_flushBuffer (hid : ∀ p, c.fileProviders[0]? = some (some p) → p.id = 0) :
    ∀ p, c.flushBuffer.fileProviders[0]? = some (some p) → p.id = 0 := by
  by_cases hnil : c.fileProviders = []
  · intro p hp
    rw [flushBuffer] at hp
    split_ifs at hp
    · rw [hnil] at hp
      cases hp
      rfl
    · exact hid p hp
  · rw [getElem?_flushBuffer hnil]
    exact hid

theorem size_collect (c : Collector) (e : Entry) : (c.collect e).size = c.size + 1 := by
  rw [collect]
  split_ifs
  · exact size_flushBuffer _
  · rfl

theorem used_collect (hid : ∀ p, c.fileProviders[0]? = some (some p) → p.id = 0) (e : Entry) :
    Used (c.collect e) := by
  have hsize : (c.collect e).size ≠ 0 := by
    rw [size_collect]
    exact Nat.succ_ne_zero _
  refine ⟨.inl hsize, ?_, fun h => absurd h hsize⟩
  rw [collect]
  split_ifs
  · exact id_flushBuffer hid
  · exact hid

theorem Used.load {T : Type} {loadFunc : Entry → T → T} {table table' : T} (hused : Used c)
    (h : c.load pq loadFunc table = .ok (table', c')) : Used c' := by
  rw [Collector.load] at h
  split_ifs at h with hsize hfiles
  · cases h
    exact hused
  · cases h
    exact ⟨.inl hsize, hused.id, fun h => absurd h hsize⟩
  · obtain ⟨⟨queue, providers⟩, hfill, h⟩ := of_bind_eq_ok h
    obtain ⟨⟨table'', providers'⟩, hmerge, h⟩ := of_bind_eq_ok h
    cases h
    obtain ⟨hserved, hne⟩ := fillQueue_served (id_flushBuffer hused.id) hfill
    obtain ⟨hserved', hne'⟩ := mergeLoop_served pq loadFunc hserved hmerge
    refine ⟨.inr (hne' (hne ?_)), fun p hp => (hserved' p hp).1, fun _ => hserved'⟩
    exact ne_nil_of_getElem? (getElem?_flushBuffer hfiles) hfiles

theorem getElem?_collect (h : c.fileProviders ≠ []) (e : Entry) :
    (c.collect e).fileProviders[0]? = c.fileProviders[0]? := by
  rw [collect]
  split_ifs
  · exact getElem?_flushBuffer h
  · rfl

/-- A provider that is closed, or not there any more, cannot be read. -/
theorem fillQueue_closed {providers : List (Option FileProvider)} (hs : Served [] providers)
    (hne : providers ≠ []) (r : List (Entry × ℕ) × List (Option FileProvider)) :
    fillQueue providers ≠ .ok r := by
  intro h
  cases providers with
  | nil => exact hne rfl
  | cons provider ps =>
    cases provider with
    | none => cases h
    | some p =>
      obtain ⟨x, hread, -⟩ := of_bind_eq_ok h
      rcases (hs p rfl).2 with hclosed | ⟨y, hy, -⟩
      · rw [FileProvider.readEntry, if_pos (.inl hclosed)] at hread
        cases hread
      · exact absurd hy List.not_mem_nil

/-- With what has been collected before, the collector is not like a new one. -/
theorem not_reusable (hused : Used c) : ¬Reusable pq optimalSize c := by
  intro h
  have hfiles : c.fileProviders ≠ [] := hused.collected.resolve_left (not_not.mpr h.size)
  let e : Entry := ([1], [])
  have hsorted := h.sorted [e] (by decide)
  change ((c.collect e).emit pq).map Prod.fst = _ at hsorted
  have hne := ne_nil_of_getElem? (getElem?_collect hfiles e) hfiles
  have hfirst : (c.collect e).flushBuffer.fileProviders[0]? = c.fileProviders[0]? :=
    (getElem?_flushBuffer hne).trans (getElem?_collect hfiles e)
  have hserved : Served [] (c.collect e).flushBuffer.fileProviders := by
    rw [Served, hfirst]
    exact hused.served h.size
  cases hemit : (c.collect e).emit pq with
  | error err =>
    rw [hemit] at hsorted
    cases hsorted
  | ok r =>
    rw [emit, load, if_neg (by rw [size_collect]; exact Nat.succ_ne_zero _), if_neg hne] at hemit
    obtain ⟨r', hfill, -⟩ := of_bind_eq_ok hemit
    exact fillQueue_closed hserved (ne_nil_of_getElem? hfirst hfiles) r' hfill

theorem reusable_init (pq : PriorityQueue) (optimalSize : ℕ) :
    Reusable pq optimalSize (init optimalSize) where
  size := rfl
  fresh _ := rfl
  sorted es hes := by
    obtain ⟨runs, h⟩ := holds_collectAll optimalSize hes
    obtain ⟨c, hload⟩ := h.load hes pq (fun e es => es ++ [e]) []
    have hout : (sortedEntries es).foldl (fun out e => out ++ [e]) [] = sortedEntries es := by
      rw [List.foldl_append_eq_append, List.nil_append, ← List.flatMap_def, List.flatMap_singleton']
    change (load pq (fun e es => es ++ [e]) [] _).map Prod.fst = _
    rw [collectAll, hload, hout]
    rfl

/-- After any use, a collector is new or something has been collected. -/
theorem use_cases {uses : List Use} (h : uses.foldlM (use pq) (init optimalSize) = .ok c) :
    c = init optimalSize ∧ (∀ e, Use.collect e ∉ uses) ∨ Used c ∧ ∃ e, Use.collect e ∈ uses := by
  induction uses using List.reverseRecOn generalizing c with
  | nil =>
    cases h
    exact .inl ⟨rfl, fun e => List.not_mem_nil⟩
  | append_singleton uses u ih =>
    rw [List.foldlM_append] at h
    obtain ⟨c', hc', h⟩ := of_bind_eq_ok h
    obtain ⟨c'', h, hlast⟩ := of_bind_eq_ok h
    cases hlast
    cases u with
    | collect e =>
      cases h
      refine .inr ⟨used_collect ?_ e, e, by simp⟩
      rcases ih hc' with ⟨rfl, -⟩ | ⟨hused, -⟩
      · exact nofun
      · exact hused.id
    | load =>
      rcases ih hc' with ⟨rfl, hnone⟩ | ⟨hused, e, he⟩
      · cases h
        exact .inl ⟨rfl, fun e => by simpa using hnone e⟩
      · refine .inr ⟨?_, e, List.mem_append_left _ he⟩
        cases hemit : c'.emit pq with
        | error err =>
          change (c'.emit pq).map Prod.snd = .ok c at h
          rw [hemit] at h
          cases h
        | ok r =>
          change (c'.emit pq).map Prod.snd = .ok c at h
          rw [hemit] at h
          cases h
          exact hused.load hemit

/-- A collector is like a new one after a load exactly if nothing has ever been collected. -/
theorem reusable_iff {uses : List Use} {out : List Entry}
    (h : uses.foldlM (use pq) (init optimalSize) = .ok c) (hload : c.emit pq = .ok (out, c')) :
    Reusable pq optimalSize c' ↔ ∀ e, Use.collect e ∉ uses := by
  rcases use_cases h with ⟨rfl, hnone⟩ | ⟨hused, e, he⟩
  · cases hload
    exact iff_of_true (reusable_init pq optimalSize) hnone
  · exact iff_of_false (not_reusable (hused.load hload)) fun hnone => hnone e he

/-- An entry that is loaded from memory. -/
theorem emit_one (pq : PriorityQueue) :
    emit pq (collect ([1], []) (init 100)) =
      .ok ([([1], [])], { buffer := { optimalSize := 100 }, size := 1 }) := by
  have hcollect : collect ([1], []) (init 100) =
      { buffer := { optimalSize := 100, entries := [([1], [])] }, size := 1 } := rfl
  simp [hcollect, emit, load, Buffer.sort, Buffer.clear]

/-- It is still counted, and what is loaded after it is not the same as for a new collector. -/
theorem reusable_iff_one :
    ¬Reusable firstSmallest 100 { buffer := { optimalSize := 100 }, size := 1 } := by
  have h := @reusable_iff firstSmallest 100 _ _ [.collect ([1], [])] _ rfl (emit_one firstSmallest)
  exact fun hreusable => h.mp hreusable ([1], []) List.mem_cons_self

theorem not_reusable_of_load :
    ¬∀ (pq : PriorityQueue) (optimalSize : ℕ) (uses : List Use) (c c' : Collector)
      (out : List Entry), uses.foldlM (use pq) (init optimalSize) = .ok c →
      c.emit pq = .ok (out, c') → Reusable pq optimalSize c' := by
  intro h
  have hsize := (h firstSmallest 100 [.collect ([1], [])] _ _ _ rfl
    (emit_one firstSmallest)).size
  cases hsize

end Collectors

end Collector

end Silkworm.Etl
