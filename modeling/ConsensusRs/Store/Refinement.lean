import ConsensusRs.Store.Iter
/-!
# An index is a finite map

Issue any sequence of `put`, `remove` and `clear` through one index from
`new`, over a database holding nothing under its name. What the index
returns afterwards is what the finite map the sequence describes returns
(`IndexOp.denote`): `get` and `contains` read it, and `iter("")` lists it,
each key once, in the order of its encoding.

The invariant is `Holds`: the map's value at `k` is stored at
`name ++ write k`, and every key under the name is of that form. Each
operation keeps it (`Holds.put`, `Holds.remove`, `Holds.clear`), so every
run does (`Holds.run_ops`). Under it, the entries below `name ++ q` are the
map's bindings at keys whose encoding begins with `q`
(`Holds.mem_withPrefix_append`), which a scan from `name ++ q` lists in
ascending order (`Holds.mem_scan_iff`, `Holds.sorted_scan`); `iter("")` is
the scan at `q = []` (`Holds.reads`). `clear` deletes more than the index's own keys,
which `Holds` does not see: it is about the keyspace `name`.
-/

namespace ConsensusRs

/-- What a caller issues through one index. -/
inductive IndexOp (K V : Type) where
  | put (key : K) (value : V)
  | remove (key : K)
  | clear
  deriving DecidableEq

namespace IndexOp

variable {K V : Type} [StorageKey K] [StorageValue V] [DecidableEq K]

/-- Issuing `op` through `idx`. -/
def apply (idx : BaseIndex) (db : Database) : IndexOp K V → Option Database
  | put key value => idx.put db key value
  | remove key => idx.remove db key
  | clear => idx.clear db

/-- Issuing `ops` in order; a panic ends the run. -/
def run (idx : BaseIndex) : Database → List (IndexOp K V) → Option Database
  | db, [] => some db
  | db, op :: ops => (op.apply idx db).bind fun db' => run idx db' ops

/-- What one operation does to a finite map. -/
def step (m : K → Option V) : IndexOp K V → K → Option V
  | put key value => Function.update m key (some value)
  | remove key => Function.update m key none
  | clear => fun _ => none

/-- The finite map `ops` describe: at each key, the value of the last `put`
there that no later `remove` of it and no later `clear` undid. -/
def denote (ops : List (IndexOp K V)) : K → Option V :=
  ops.foldl step fun _ => none

end IndexOp

/-- The database holds the map `m` under `name`. -/
structure Holds {K V : Type} [StorageKey K] [StorageValue V] (name : Bytes) (db : Database)
    (m : K → Option V) : Prop where
  get_eq : ∀ key, db.get (name ++ StorageKey.write key) = (m key).map StorageValue.intoBytes
  keyed : ∀ e ∈ db.entries, name <+: e.1 → ∃ key : K, e.1 = name ++ StorageKey.write key

namespace Holds

variable {K V : Type} [StorageKey K] [StorageValue V]
variable {name : Bytes} {db : Database} {m : K → Option V}

/-- A database with nothing under `name` holds the empty map there. -/
theorem fresh (h : ∀ e ∈ db.entries, ¬ name <+: e.1) : Holds name db (fun _ : K => (none : Option V)) where
  get_eq key := by
    rcases hget : db.get (name ++ StorageKey.write key) with _ | w
    · rfl
    · exact absurd (List.prefix_append _ _) (h _ ((Database.get_eq_some_iff db).1 hget))
  keyed e he hp := absurd hp (h e he)

theorem append_write_inj (hinj : Function.Injective (StorageKey.write : K → Bytes)) {k key : K} :
    name ++ StorageKey.write k = name ++ StorageKey.write key ↔ k = key :=
  ⟨fun h => hinj (List.append_cancel_left h), fun h => h ▸ rfl⟩

theorem put [DecidableEq K] (hinj : Function.Injective (StorageKey.write : K → Bytes)) (h : Holds name db m)
    (key : K) (value : V) :
    Holds name (db.applyOp (.insert (name ++ StorageKey.write key) (StorageValue.intoBytes value)))
      (Function.update m key (some value)) where
  get_eq k := by
    rw [Database.get_applyOp_insert, Function.update_apply]
    by_cases hk : k = key
    · subst hk; simp
    · rw [if_neg (mt (append_write_inj hinj).1 hk), if_neg hk]
      exact h.get_eq k
  keyed e he hp := by
    rcases (Database.mem_insertEntry db.sorted).1 he with rfl | ⟨he, -⟩
    exacts [⟨key, rfl⟩, h.keyed e he hp]

theorem remove [DecidableEq K] (hinj : Function.Injective (StorageKey.write : K → Bytes)) (h : Holds name db m)
    (key : K) :
    Holds name (db.applyOp (.delete (name ++ StorageKey.write key))) (Function.update m key none) where
  get_eq k := by
    rw [Database.get_applyOp_delete, Function.update_apply]
    by_cases hk : k = key
    · subst hk; simp
    · rw [if_neg (mt (append_write_inj hinj).1 hk), if_neg hk]
      exact h.get_eq k
  keyed e he hp := h.keyed e (Database.mem_deleteEntry.1 he).1 hp

/-- Keeping only the entries before `n` leaves nothing under any `name`
sorting at or after `n`. -/
theorem clear {db' : Database} {n : Bytes} (h : db'.entries = db.entries.filter fun e => e.1 < n)
    (hn : n ≤ name) : Holds name db' (fun _ : K => (none : Option V)) :=
  fresh fun e he hp => by
    rw [h, List.mem_filter] at he
    exact absurd (hn.trans (Bytes.le_of_isPrefix hp)) (not_le.2 (by simpa using he.2))

/-- **The entries under `name ++ q` are the map's bindings under `q`.** -/
theorem mem_withPrefix_append (h : Holds name db m) {q : Bytes} {e : Bytes × Bytes} :
    e ∈ db.withPrefix (name ++ q) ↔ ∃ k v, m k = some v ∧ q <+: StorageKey.write k ∧
      e = (name ++ StorageKey.write k, StorageValue.intoBytes v) := by
  rw [Database.mem_withPrefix]
  constructor
  · rintro ⟨he, hp⟩
    obtain ⟨k, hk⟩ := h.keyed e he ((List.prefix_append _ _).trans hp)
    have hget := h.get_eq k
    rw [← hk, (Database.get_eq_some_iff db).2 he] at hget
    obtain ⟨v, hv, hbytes⟩ := Option.map_eq_some'.1 hget.symm
    rw [hk, List.prefix_append_right_inj] at hp
    exact ⟨k, v, hv, hp, Prod.ext hk hbytes.symm⟩
  · rintro ⟨k, v, hv, hq, rfl⟩
    have hget := h.get_eq k
    rw [hv, Option.map_some'] at hget
    exact ⟨(Database.get_eq_some_iff db).1 hget, (List.prefix_append_right_inj name).2 hq⟩

open BaseIndex BaseIndexIter

variable {indexName : String} {ty : IndexType}

/-- One operation through an index from `new` keeps `Holds`. -/
theorem apply_op [DecidableEq K] (hinj : Function.Injective (StorageKey.write : K → Bytes))
    (h : Holds (new indexName ty).nameBytes db m) (op : IndexOp K V) :
    ∃ db', op.apply (new indexName ty) db = some db' ∧
      Holds (new indexName ty).nameBytes db' (IndexOp.step m op) := by
  cases op with
  | put key value => exact ⟨_, put_new indexName ty db key value, h.put hinj key value⟩
  | remove key => exact ⟨_, remove_new indexName ty db key, h.remove hinj key⟩
  | clear =>
    obtain ⟨db', hclear, hentries⟩ := entries_clear_new indexName ty db
    exact ⟨db', hclear, clear hentries le_rfl⟩

/-- **Every run keeps `Holds`.** -/
theorem run_ops [DecidableEq K] (hinj : Function.Injective (StorageKey.write : K → Bytes)) :
    ∀ (ops : List (IndexOp K V)) {db : Database} {m : K → Option V},
      Holds (new indexName ty).nameBytes db m →
      ∃ db', IndexOp.run (new indexName ty) db ops = some db' ∧
        Holds (new indexName ty).nameBytes db' (ops.foldl IndexOp.step m)
  | [], db, _, h => ⟨db, rfl, h⟩
  | op :: ops, _, _, h => by
    obtain ⟨db₁, h₁, hh₁⟩ := h.apply_op hinj op
    obtain ⟨db₂, h₂, hh₂⟩ := run_ops hinj ops hh₁
    exact ⟨db₂, by simp [IndexOp.run, h₁, h₂], hh₂⟩

/-! ## Reading the map back -/

theorem get_new_eq (hval : ∀ v : V, StorageValue.fromBytes (StorageValue.intoBytes v) = v)
    (h : Holds (new indexName ty).nameBytes db m) (k : K) :
    (new indexName ty).get db k = some (m k) := by
  rw [get_new, h.get_eq, Option.map_map]
  cases m k <;> simp [hval]

/-- What `iter` yields under `q`: the bindings at keys whose encoding begins
with `q`. -/
theorem mem_scan_iff (hkey : ∀ k : K, StorageKey.read (StorageKey.write k) = k)
    (hval : ∀ v : V, StorageValue.fromBytes (StorageValue.intoBytes v) = v)
    (h : Holds name db m) (q : Bytes) (k : K) (v : V) :
    (k, v) ∈ (db.withPrefix (name ++ q)).map (decodeAt name.length) ↔
      m k = some v ∧ q <+: StorageKey.write k := by
  simp only [List.mem_map, h.mem_withPrefix_append]
  constructor
  · rintro ⟨_, ⟨k', v', hv', hq, rfl⟩, hdec⟩
    simp only [decodeAt, List.drop_left, hkey, hval, Prod.mk.injEq] at hdec
    obtain ⟨rfl, rfl⟩ := hdec
    exact ⟨hv', hq⟩
  · rintro ⟨hv, hq⟩
    exact ⟨_, ⟨k, v, hv, hq, rfl⟩, by simp [decodeAt, hkey, hval]⟩

/-- Ascending in the key's encoding, each key once. -/
theorem sorted_scan (hkey : ∀ k : K, StorageKey.read (StorageKey.write k) = k)
    (h : Holds name db m) (q : Bytes) :
    (((db.withPrefix (name ++ q)).map (decodeAt (K := K) (V := V) name.length)).map
      fun kv => StorageKey.write kv.1).Pairwise (· < ·) := by
  rw [List.map_map]
  have hdrop : ∀ e ∈ db.withPrefix (name ++ q),
      ((fun kv : K × V => StorageKey.write kv.1) ∘ decodeAt name.length) e = e.1.drop name.length := by
    intro e he
    obtain ⟨k, v, -, -, rfl⟩ := h.mem_withPrefix_append.1 he
    simp [decodeAt, hkey]
  rw [List.map_congr_left hdrop, List.pairwise_map]
  refine (db.sorted.filter _).imp_of_mem fun ha hb hab => ?_
  obtain ⟨s, hs⟩ := (Database.mem_withPrefix.1 ha).2
  obtain ⟨t, ht⟩ := (Database.mem_withPrefix.1 hb).2
  rw [← hs, ← ht] at hab ⊢
  simpa using hab

/-- **What an index from `new` reads off a database holding `m` under its
name.** `get` returns the map's value, `contains` whether it has one, and
`iter("")` yields each key the map holds once, with its value, in ascending
order of the key's encoding. -/
theorem reads (hkey : ∀ k : K, StorageKey.read (StorageKey.write k) = k)
    (hval : ∀ v : V, StorageValue.fromBytes (StorageValue.intoBytes v) = v)
    (h : Holds (new indexName ty).nameBytes db m) :
    (∀ k : K, (new indexName ty).get db k = some (m k)) ∧
    (∀ k : K, (new indexName ty).contains db k =
      ((new indexName ty).get (V := V) db k).map Option.isSome) ∧
    ∃ (it : BaseIndexIter K V) (items : List (K × V)),
      (new indexName ty).iter db "" = some it ∧
      (∀ n, (it.advance n).next.1 = items[n]?) ∧
      (∀ k v, (k, v) ∈ items ↔ m k = some v) ∧
      (items.map fun kv => StorageKey.write kv.1).Pairwise (· < ·) := by
  obtain ⟨it, hit, hrem⟩ := iter_new (K := K) (V := V) db indexName ty ""
  rw [write_emptyString, List.append_nil] at hrem
  refine ⟨h.get_new_eq hval, fun k => ?_, it, it.remaining, hit, next_advance it, ?_, ?_⟩
  · rw [contains_new, h.get_new_eq hval, h.get_eq]
    cases m k <;> rfl
  · rw [hrem]
    simpa using h.mem_scan_iff hkey hval []
  · rw [hrem]
    simpa only [List.append_nil] using h.sorted_scan hkey []

end Holds

open BaseIndex BaseIndexIter

/-- **An index is a finite map.** Over a database with nothing under the
index's name, after any run of `put`, `remove` and `clear` through it, `get`
returns the value the run's finite map holds, `contains` whether it holds
one, and `iter("")` yields each key the map holds once, with its value, in
ascending order of the key's encoding. -/
theorem index_refines_finiteMap {K V : Type} [StorageKey K] [StorageValue V] [DecidableEq K]
    (db : Database) (indexName : String) (ty : IndexType)
    (hfresh : ∀ e ∈ db.entries, ¬ (new indexName ty).nameBytes <+: e.1)
    (hkey : ∀ k : K, StorageKey.read (StorageKey.write k) = k)
    (hval : ∀ v : V, StorageValue.fromBytes (StorageValue.intoBytes v) = v)
    (ops : List (IndexOp K V)) :
    ∃ db', IndexOp.run (new indexName ty) db ops = some db' ∧
      (∀ k : K, (new indexName ty).get db' k = some (IndexOp.denote ops k)) ∧
      (∀ k : K, (new indexName ty).contains db' k =
        ((new indexName ty).get (V := V) db' k).map Option.isSome) ∧
      ∃ (it : BaseIndexIter K V) (items : List (K × V)),
        (new indexName ty).iter db' "" = some it ∧
        (∀ n, (it.advance n).next.1 = items[n]?) ∧
        (∀ k v, (k, v) ∈ items ↔ IndexOp.denote ops k = some v) ∧
        (items.map fun kv => StorageKey.write kv.1).Pairwise (· < ·) := by
  obtain ⟨db', hrun, hholds⟩ :=
    Holds.run_ops (Function.LeftInverse.injective hkey) ops (Holds.fresh (V := V) hfresh)
  exact ⟨db', hrun, hholds.reads hkey hval⟩

theorem index_refines_finiteMap_empty :
    (∀ e ∈ Database.empty.entries, ¬ (new "t" .map).nameBytes <+: e.1) ∧
    (∀ k : Bytes, StorageKey.read (StorageKey.write k) = k) ∧
    (∀ v : Bytes, StorageValue.fromBytes (StorageValue.intoBytes v) = v) ∧
    ∃ db', IndexOp.run (new "t" .map) Database.empty
        [.put ([1] : Bytes) ([2] : Bytes), .clear, .put [3] [4], .remove [1]] = some db' ∧
      (∀ k : Bytes, (new "t" .map).get db' k = some (IndexOp.denote
        [.put ([1] : Bytes) ([2] : Bytes), .clear, .put [3] [4], .remove [1]] k)) ∧
      (∀ k : Bytes, (new "t" .map).contains db' k =
        ((new "t" .map).get (V := Bytes) db' k).map Option.isSome) ∧
      ∃ (it : BaseIndexIter Bytes Bytes) (items : List (Bytes × Bytes)),
        (new "t" .map).iter db' "" = some it ∧
        (∀ n, (it.advance n).next.1 = items[n]?) ∧
        (∀ k v, (k, v) ∈ items ↔ IndexOp.denote
          [.put ([1] : Bytes) ([2] : Bytes), .clear, .put [3] [4], .remove [1]] k = some v) ∧
        (items.map fun kv => StorageKey.write kv.1).Pairwise (· < ·) :=
  ⟨fun _ h => absurd h (List.not_mem_nil _), fun _ => rfl, fun _ => rfl,
    index_refines_finiteMap Database.empty "t" .map (fun _ h => absurd h (List.not_mem_nil _))
      (fun _ => rfl) (fun _ => rfl) _⟩

end ConsensusRs
