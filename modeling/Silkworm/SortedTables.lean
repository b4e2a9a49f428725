import Silkworm.RlpEncoding

/-!
# Sorted tables of byte strings

Tables of a key-value store: entries in the order of their keys, and of their values under
one key. A plain table has one value to a key, a table with duplicates has several.
-/

namespace Silkworm.SortedTables
open BigEndian

abbrev Entry := Bytes × Bytes

def Before (e e' : Entry) : Prop := e.1 < e'.1 ∨ e.1 = e'.1 ∧ e.2 < e'.2

instance (e e' : Entry) : Decidable (Before e e') :=
  inferInstanceAs (Decidable (e.1 < e'.1 ∨ e.1 = e'.1 ∧ e.2 < e'.2))

theorem lt_or_eq_or_gt (a b : Bytes) : a < b ∨ a = b ∨ b < a := by
  by_cases h : a < b
  · exact .inl h
  · by_cases h' : b < a
    · exact .inr (.inr h')
    · exact .inr (.inl (List.le_antisymm (List.not_lt.mp h') (List.not_lt.mp h)))

theorem Before.trans {e e' e'' : Entry} (h : Before e e') (h' : Before e' e'') : Before e e'' := by
  rcases h with h | ⟨h, hv⟩ <;> rcases h' with h' | ⟨h', hv'⟩
  · exact .inl (List.lt_trans h h')
  · exact .inl (h' ▸ h)
  · exact .inl (h ▸ h')
  · exact .inr ⟨h.trans h', List.lt_trans hv hv'⟩

theorem before_of_not_before {e e' : Entry} (h : ¬Before e e') (hne : e ≠ e') : Before e' e := by
  obtain ⟨hk, hv⟩ := not_or.mp h
  rcases lt_or_eq_or_gt e.1 e'.1 with hlt | heq | hgt
  · exact absurd hlt hk
  · rcases lt_or_eq_or_gt e.2 e'.2 with hlt | heq' | hgt
    · exact absurd ⟨heq, hlt⟩ hv
    · exact absurd (Prod.ext heq heq') hne
    · exact .inr ⟨heq.symm, hgt⟩
  · exact .inl hgt

/-- Insert an entry in its place, unless it is there. -/
def insertEntry (e : Entry) : List Entry → List Entry
  | [] => [e]
  | x :: l => if Before e x then e :: x :: l else if e = x then x :: l else x :: insertEntry e l

theorem mem_insertEntry {e x : Entry} {l : List Entry} :
    x ∈ insertEntry e l ↔ x = e ∨ x ∈ l := by
  induction l with
  | nil => simp [insertEntry]
  | cons y l ih =>
    rw [insertEntry]
    split_ifs with hb he
    · simp
    · simp [he]
    · simp only [List.mem_cons, ih]
      tauto

theorem pairwise_insertEntry {e : Entry} {l : List Entry} (h : l.Pairwise Before) :
    (insertEntry e l).Pairwise Before := by
  induction l with
  | nil => exact List.pairwise_singleton _ _
  | cons x l ih =>
    obtain ⟨hx, hl⟩ := List.pairwise_cons.mp h
    rw [insertEntry]
    split_ifs with hb he
    · refine List.pairwise_cons.mpr ⟨fun y hy => ?_, h⟩
      rcases List.mem_cons.mp hy with rfl | hy
      · exact hb
      · exact hb.trans (hx y hy)
    · exact h
    · refine List.pairwise_cons.mpr ⟨fun y hy => ?_, ih hl⟩
      rcases mem_insertEntry.mp hy with rfl | hy
      · exact before_of_not_before hb he
      · exact hx y hy

theorem mem_dropWhile_of_not {X : Type} {p : X → Bool} {l : List X} {x : X} (hx : x ∈ l)
    (hp : ¬p x = true) : x ∈ l.dropWhile p := by
  induction l with
  | nil => cases hx
  | cons y l ih =>
    rw [List.dropWhile_cons]
    split_ifs with hy
    · rcases List.mem_cons.mp hx with rfl | hx
      · exact absurd hy hp
      · exact ih hx
    · exact hx

/-- Where a property does not come back once it is lost, it holds of the first elements. -/
theorem takeWhile_eq_filter {X : Type} {p : X → Bool} {l : List X}
    (h : l.Pairwise fun x y => ¬p x = true → ¬p y = true) : l.takeWhile p = l.filter p := by
  induction l with
  | nil => rfl
  | cons x l ih =>
    obtain ⟨hx, hl⟩ := List.pairwise_cons.mp h
    by_cases hp : p x = true
    · rw [List.takeWhile_cons_of_pos hp, List.filter_cons_of_pos hp, ih hl]
    · have hnil : l.filter p = [] := List.filter_eq_nil_iff.mpr fun y hy => hx y hy hp
      rw [List.takeWhile_cons_of_neg hp, List.filter_cons_of_neg hp, hnil]

theorem filter_dropWhile {X : Type} {p below : X → Bool} (h : ∀ x, below x = true → ¬p x = true)
    (l : List X) : (l.dropWhile below).filter p = l.filter p := by
  induction l with
  | nil => rfl
  | cons x l ih =>
    by_cases hx : below x = true
    · rw [List.dropWhile_cons_of_pos hx, ih, List.filter_cons_of_neg (h x hx)]
    · rw [List.dropWhile_cons_of_neg hx]

/-- In a sorted list the entries of a key are next to each other. -/
theorem takeWhile_dropWhile_key {key : Bytes} {l : List Entry} (hl : l.Pairwise Before) :
    ((l.dropWhile fun e => ¬e.1 = key).takeWhile fun e => e.1 = key) =
      l.filter fun e => e.1 = key := by
  have hsub : (l.dropWhile fun e => ¬e.1 = key).Pairwise Before :=
    hl.sublist (List.dropWhile_sublist _)
  have hbelow (e : Entry) (he : decide (¬e.1 = key) = true) : ¬decide (e.1 = key) = true := by
    simpa using he
  refine Eq.trans ?_ (filter_dropWhile hbelow l)
  apply takeWhile_eq_filter
  cases hd : l.dropWhile fun e => ¬e.1 = key with
  | nil => exact List.Pairwise.nil
  | cons x rest =>
    rw [hd] at hsub
    obtain ⟨hx, hrest⟩ := List.pairwise_cons.mp hsub
    -- the list begins with the key, so that another key is a greater one
    have hkey : x.1 = key := by
      have hhead := List.head?_dropWhile_not (fun e : Entry => ¬e.1 = key) l
      rw [hd] at hhead
      simpa using hhead
    refine List.pairwise_cons.mpr ⟨fun y _ hne => absurd hkey (by simpa using hne), ?_⟩
    refine hrest.imp_of_mem fun {y z} hy _ hyz hne hz => ?_
    have hne : y.1 ≠ key := by simpa using hne
    have hz : z.1 = key := by simpa using hz
    rcases hx y hy with hlt | ⟨heq, -⟩
    · rcases hyz with hlt' | ⟨heq', -⟩
      · rw [hkey] at hlt
        rw [hz] at hlt'
        exact List.lt_asymm hlt hlt'
      · exact hne (heq'.trans hz)
    · exact hne (heq.symm.trans hkey)

/-- A table, whose entries are in order. -/
structure Table where
  entries : List Entry := []
  sorted : entries.Pairwise Before := by exact List.Pairwise.nil
  deriving DecidableEq

namespace Table

variable (t : Table)

/-- The first value of a key. -/
def get (key : Bytes) : Option Bytes := (t.entries.find? fun e => e.1 = key).map Prod.snd

/-- The first entry of a key whose value is not below a bound. -/
def seekDup (key lowerBound : Bytes) : Option Entry :=
  t.entries.find? fun e => e.1 = key ∧ ¬e.2 < lowerBound

/-- What follows a prefix in the first value of a key from the prefix on. -/
def getSuffix (key subKey : Bytes) : Option Bytes :=
  (t.seekDup key subKey).bind fun e =>
    if subKey.isPrefixOf e.2 then some (e.2.drop subKey.length) else none

def erase (e : Entry) : Table where
  entries := t.entries.erase e
  sorted := t.sorted.sublist List.erase_sublist

/-- Delete the first value of a key. -/
def del (key : Bytes) : Table :=
  match t.entries.find? fun e => e.1 = key with
  | some e => t.erase e
  | none => t

/-- Delete the value that `getSuffix` finds. -/
def delSuffix (key subKey : Bytes) : Table :=
  match t.seekDup key subKey with
  | some e => if subKey.isPrefixOf e.2 then t.erase e else t
  | none => t

/-- Put one more value under a key. -/
def putDup (key data : Bytes) : Table where
  entries := insertEntry (key, data) t.entries
  sorted := pairwise_insertEntry t.sorted

/-- The entries from a key on, if the key is there. -/
def seekExact (key : Bytes) : List Entry := t.entries.dropWhile fun e => e.1 ≠ key

/-- The entries from the first key on that is not below a bound. -/
def seek (lowerBound : Bytes) : List Entry := t.entries.dropWhile fun e => e.1 < lowerBound

section Membership

variable {t}

@[simp] theorem mem_putDup {key data : Bytes} {e : Entry} :
    e ∈ (t.putDup key data).entries ↔ e = (key, data) ∨ e ∈ t.entries := mem_insertEntry

/-- The entries are different from each other. -/
theorem nodup_entries (t : Table) : t.entries.Nodup := by
  refine t.sorted.imp fun {e e'} h heq => ?_
  subst heq
  rcases h with h | ⟨-, h⟩ <;> exact List.lt_irrefl _ h

/-- A table is determined by its entries. -/
theorem ext_of_mem {t' : Table} (h : ∀ e, e ∈ t.entries ↔ e ∈ t'.entries) : t = t' := by
  have hperm : t.entries.Perm t'.entries :=
    (List.perm_ext_iff_of_nodup t.nodup_entries t'.nodup_entries).mpr h
  have heq : t.entries = t'.entries := by
    refine hperm.eq_of_pairwise (fun x y _ _ hxy hyx => ?_) t.sorted t'.sorted
    rcases hxy.trans hyx with h | ⟨-, h⟩ <;> exact absurd h (List.lt_irrefl _)
  cases t
  cases t'
  cases heq
  rfl

theorem mem_erase {e x : Entry} : x ∈ (t.erase e).entries ↔ x ≠ e ∧ x ∈ t.entries :=
  t.nodup_entries.mem_erase_iff

/-- A key with one value. -/
theorem get_eq_some_iff {key value : Bytes}
    (huniq : ∀ v v', (key, v) ∈ t.entries → (key, v') ∈ t.entries → v = v') :
    t.get key = some value ↔ (key, value) ∈ t.entries := by
  rw [get, Option.map_eq_some_iff]
  constructor
  · rintro ⟨e, he, rfl⟩
    have hkey : e.1 = key := by simpa using List.find?_some he
    rw [← hkey]
    exact List.mem_of_find?_eq_some he
  · intro h
    have hsome : (t.entries.find? fun e => e.1 = key).isSome :=
      List.find?_isSome.mpr ⟨_, h, by simp⟩
    obtain ⟨e, he⟩ := Option.isSome_iff_exists.mp hsome
    have hkey : e.1 = key := by simpa using List.find?_some he
    refine ⟨e, he, huniq _ _ ?_ h⟩
    rw [← hkey]
    exact List.mem_of_find?_eq_some he

theorem get_eq_none_iff {key : Bytes} : t.get key = none ↔ ∀ v, (key, v) ∉ t.entries := by
  rw [get, Option.map_eq_none_iff, List.find?_eq_none]
  constructor
  · intro h v hv
    simpa using h _ hv
  · intro h e he
    have hne : e.1 ≠ key := fun hkey => h e.2 (hkey ▸ he)
    simpa using hne

theorem mem_del {key : Bytes}
    (huniq : ∀ v v', (key, v) ∈ t.entries → (key, v') ∈ t.entries → v = v') {x : Entry} :
    x ∈ (t.del key).entries ↔ x ∈ t.entries ∧ x.1 ≠ key := by
  rw [del]
  cases he : t.entries.find? fun e => e.1 = key with
  | none =>
    have hne : ∀ e ∈ t.entries, e.1 ≠ key := by simpa using List.find?_eq_none.mp he
    exact ⟨fun h => ⟨h, hne x h⟩, fun h => h.1⟩
  | some e =>
    have hkey : e.1 = key := by simpa using List.find?_some he
    have hmem := List.mem_of_find?_eq_some he
    dsimp only
    rw [mem_erase]
    constructor
    · rintro ⟨hne, hx⟩
      refine ⟨hx, fun hxk => hne ?_⟩
      exact Prod.ext (hxk.trans hkey.symm) (huniq _ _ (hxk ▸ hx) (hkey ▸ hmem))
    · rintro ⟨hx, hne⟩
      exact ⟨fun h => hne (h ▸ hkey), hx⟩

/-- Strings between a string and one that begins with it begin with it too. -/
theorem prefix_of_between {p x y : Bytes} (hpx : ¬x < p) (hxy : ¬y < x) (hpy : p <+: y) :
    p <+: x := by
  induction p generalizing x y with
  | nil => exact List.nil_prefix
  | cons b p ih =>
    obtain ⟨s, rfl⟩ := hpy
    cases x with
    | nil => exact absurd (List.nil_lt_cons b p) hpx
    | cons c x =>
      rw [List.cons_append, List.cons_lt_cons_iff] at hxy
      rw [List.cons_lt_cons_iff] at hpx
      obtain ⟨hcb, hpx⟩ := not_or.mp hpx
      obtain ⟨hbc, hxy⟩ := not_or.mp hxy
      have hbc' : c = b := UInt8.le_antisymm (UInt8.not_lt.mp hbc) (UInt8.not_lt.mp hcb)
      subst hbc'
      exact List.cons_prefix_cons.mpr ⟨rfl, ih (fun h => hpx ⟨rfl, h⟩) (fun h => hxy ⟨rfl, h⟩)
        (List.prefix_append p s)⟩

theorem takeWhile_seekExact (key : Bytes) :
    ((t.seekExact key).takeWhile fun e => e.1 = key) = t.entries.filter fun e => e.1 = key :=
  takeWhile_dropWhile_key t.sorted

theorem not_lt_of_mem_seek {p : Bytes} {e : Entry} (h : e ∈ t.seek p) : ¬e.1 < p := by
  have hsub : (t.seek p).Pairwise Before := t.sorted.sublist (List.dropWhile_sublist _)
  have hhead := List.head?_dropWhile_not (fun e : Entry => e.1 < p) t.entries
  rw [← seek] at hhead
  cases hd : t.seek p with
  | nil =>
    rw [hd] at h
    cases h
  | cons x rest =>
    rw [hd] at h hsub hhead
    have hx : ¬x.1 < p := by simpa using hhead
    rcases List.mem_cons.mp h with rfl | he
    · exact hx
    · rcases List.rel_of_pairwise_cons hsub he with hlt | ⟨heq, -⟩
      · exact fun hep => hx (List.lt_trans hlt hep)
      · rwa [← heq]

/-- In a table the keys that begin with a prefix are next to each other. -/
theorem takeWhile_seek (p : Bytes) :
    ((t.seek p).takeWhile fun e => p.isPrefixOf e.1) = t.entries.filter fun e => p.isPrefixOf e.1 := by
  have hbelow (e : Entry) (he : decide (e.1 < p) = true) : ¬p.isPrefixOf e.1 = true := by
    intro hp
    exact (List.isPrefixOf_iff_prefix.mp hp).le (of_decide_eq_true he)
  refine Eq.trans ?_ (filter_dropWhile hbelow t.entries)
  apply takeWhile_eq_filter
  have hsub : (t.seek p).Pairwise Before := t.sorted.sublist (List.dropWhile_sublist _)
  refine hsub.imp_of_mem fun {y z} hy _ hyz hne hz => hne ?_
  have hzp := List.isPrefixOf_iff_prefix.mp hz
  refine List.isPrefixOf_iff_prefix.mpr (prefix_of_between (t.not_lt_of_mem_seek hy) ?_ hzp)
  rcases hyz with hlt | ⟨heq, -⟩
  · exact List.lt_asymm hlt
  · rw [heq]
    exact List.lt_irrefl _

/-- The search for a prefix among the values of a key finds a value if there is one. -/
theorem seekDup_of_mem {key p v : Bytes} (h : (key, p ++ v) ∈ t.entries) :
    ∃ v', t.seekDup key p = some (key, p ++ v') ∧ (key, p ++ v') ∈ t.entries := by
  have hge (v : Bytes) : ¬p ++ v < p := List.not_lt.mpr (List.prefix_append p v).le
  have hsome : (t.seekDup key p).isSome :=
    List.find?_isSome.mpr ⟨_, h, by simpa using hge v⟩
  obtain ⟨e, he⟩ := Option.isSome_iff_exists.mp hsome
  have hmem := List.mem_of_find?_eq_some he
  obtain ⟨hkey, hlow⟩ : e.1 = key ∧ ¬e.2 < p := by simpa using List.find?_some he
  have hfirst : ¬p ++ v < e.2 := by
    intro hlt
    obtain ⟨-, as, bs, hsplit, has⟩ := List.find?_eq_some_iff_append.mp he
    -- the entry would stand in front of the first one that is found
    have hsorted := t.sorted
    rw [hsplit] at hsorted h
    rcases List.mem_append.mp h with h | h
    · have := has _ h
      simp [hge v] at this
    · rcases List.mem_cons.mp h with h | h
      · rw [← h] at hlt
        exact List.lt_irrefl _ hlt
      · have hbefore := (List.pairwise_cons.mp (List.pairwise_append.mp hsorted).2.1).1 _ h
        rcases hbefore with hb | ⟨-, hb⟩
        · rw [hkey] at hb
          exact List.lt_irrefl _ hb
        · exact List.lt_irrefl _ (List.lt_trans hb hlt)
  obtain ⟨v', hv'⟩ := prefix_of_between hlow hfirst (List.prefix_append p v)
  have heq : e = (key, p ++ v') := Prod.ext hkey hv'.symm
  exact ⟨v', heq ▸ he, heq ▸ hmem⟩

theorem mem_of_seekDup {key p : Bytes} {e : Entry} (h : t.seekDup key p = some e) :
    e ∈ t.entries ∧ e.1 = key := by
  have := List.find?_some h
  exact ⟨List.mem_of_find?_eq_some h, by simp at this; exact this.1⟩

/-- A prefix with one value. -/
theorem getSuffix_eq_some_iff {key p value : Bytes}
    (huniq : ∀ v v', (key, p ++ v) ∈ t.entries → (key, p ++ v') ∈ t.entries → v = v') :
    t.getSuffix key p = some value ↔ (key, p ++ value) ∈ t.entries := by
  rw [getSuffix]
  constructor
  · intro h
    obtain ⟨e, he, h⟩ := Option.bind_eq_some_iff.mp h
    obtain ⟨hmem, hkey⟩ := mem_of_seekDup he
    split_ifs at h with hp
    cases h
    obtain ⟨v, hv⟩ := List.isPrefixOf_iff_prefix.mp hp
    rw [← hv, List.drop_left' rfl, hv, ← hkey]
    exact hmem
  · intro h
    obtain ⟨v', hseek, hmem⟩ := seekDup_of_mem h
    rw [hseek, Option.bind_some, if_pos (List.isPrefixOf_iff_prefix.mpr (List.prefix_append p v')),
      List.drop_left' rfl, huniq _ _ hmem h]

theorem mem_delSuffix {key p : Bytes}
    (huniq : ∀ v v', (key, p ++ v) ∈ t.entries → (key, p ++ v') ∈ t.entries → v = v') {x : Entry} :
    x ∈ (t.delSuffix key p).entries ↔ x ∈ t.entries ∧ ¬(x.1 = key ∧ p <+: x.2) := by
  have hnone (h : ∀ v, (key, p ++ v) ∉ t.entries) :
      x ∈ t.entries ↔ x ∈ t.entries ∧ ¬(x.1 = key ∧ p <+: x.2) := by
    refine ⟨fun hx => ⟨hx, ?_⟩, fun hx => hx.1⟩
    rintro ⟨rfl, v, hv⟩
    exact h v (by rw [hv]; exact hx)
  rw [delSuffix]
  cases hseek : t.seekDup key p with
  | none =>
    refine hnone fun v hv => ?_
    obtain ⟨v', hv', -⟩ := seekDup_of_mem hv
    rw [hseek] at hv'
    cases hv'
  | some e =>
    obtain ⟨hmem, hkey⟩ := mem_of_seekDup hseek
    dsimp only
    split_ifs with hp
    · obtain ⟨v, hv⟩ := List.isPrefixOf_iff_prefix.mp hp
      rw [mem_erase]
      constructor
      · rintro ⟨hne, hx⟩
        refine ⟨hx, ?_⟩
        rintro ⟨hxk, v', hv'⟩
        refine hne (Prod.ext (hxk.trans hkey.symm) ?_)
        rw [← hv', ← hv, huniq v' v (by rw [hv', ← hxk]; exact hx) (by rw [hv, ← hkey]; exact hmem)]
      · rintro ⟨hx, hno⟩
        refine ⟨fun h => hno ?_, hx⟩
        rw [h]
        exact ⟨hkey, List.isPrefixOf_iff_prefix.mp hp⟩
    · refine hnone fun v hv => ?_
      obtain ⟨v', hv', -⟩ := seekDup_of_mem hv
      rw [hseek] at hv'
      cases hv'
      exact hp (List.isPrefixOf_iff_prefix.mpr (List.prefix_append p v'))

end Membership

end Table

theorem single_nil (key v v' : Bytes) (h : (key, v) ∈ ([] : List Entry)) :
    (key, v') ∈ ([] : List Entry) → v = v' := by
  cases h

/-- A table without duplicates. -/
structure PlainTable extends Table where
  single : ∀ key v v', (key, v) ∈ entries → (key, v') ∈ entries → v = v' := by exact single_nil
  deriving DecidableEq

namespace PlainTable

variable (t : PlainTable)

/-- Put the value of a key in place of the old one. -/
def put (key data : Bytes) : PlainTable where
  entries := insertEntry (key, data) (t.entries.filter fun e => e.1 ≠ key)
  sorted := pairwise_insertEntry (t.sorted.sublist List.filter_sublist)
  single k v v' h h' := by
    simp only [mem_insertEntry, List.mem_filter, ne_eq, decide_not, Bool.not_eq_true',
      decide_eq_false_iff_not, Prod.mk.injEq] at h h'
    rcases h with ⟨rfl, rfl⟩ | ⟨h, hne⟩ <;> rcases h' with ⟨hk, rfl⟩ | ⟨h', hne'⟩
    · rfl
    · exact absurd rfl hne'
    · exact absurd hk hne
    · exact t.single k v v' h h'

@[simp] theorem mem_put {key data : Bytes} {e : Entry} :
    e ∈ (t.put key data).entries ↔ e = (key, data) ∨ e ∈ t.entries ∧ e.1 ≠ key := by
  rw [put, mem_insertEntry, List.mem_filter]
  simp

variable {t} in
theorem get_eq_some {key value : Bytes} : t.get key = some value ↔ (key, value) ∈ t.entries :=
  t.get_eq_some_iff (t.single key)

theorem ext_of_get {t t' : PlainTable} (h : ∀ key, t.get key = t'.get key) : t = t' := by
  have htable : t.toTable = t'.toTable := by
    refine Table.ext_of_mem fun e => ?_
    rw [← get_eq_some, ← get_eq_some, h]
  cases t
  cases t'
  cases htable
  rfl

theorem get_put (key data key' : Bytes) :
    (t.put key data).get key' = if key' = key then some data else t.get key' := by
  ext value
  rw [get_eq_some, mem_put, Prod.mk.injEq]
  split_ifs with h
  · simp [h, eq_comm]
  · simp [h, get_eq_some]

end PlainTable
end Silkworm.SortedTables
