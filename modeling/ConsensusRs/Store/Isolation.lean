import ConsensusRs.Store.Iter
/-!
# What one index's writes do to another

Every index over a database is a keyspace `name ++ ...`, with nothing
between the name and the key. Everything an index from `new` returns is
read off the entries beginning with its name (`sameView_of_withPrefix_eq`),
so a write elsewhere is invisible to it. A `put` or `remove` through
another index writes the one raw key `name' ++ key`; when neither name
begins the other, no such key begins with this index's name
(`put_remove_isolated`). When one name does begin the other, a key
completing it crosses over (`put_crosses_into_longer_name`).

`clear` is not a write of this kind. It deletes the whole scan from its
name to the end of the database, so it takes the keys of every index whose
name sorts after its own (`clear_deletes_next_index`).
-/

namespace ConsensusRs

namespace Database

variable {db db' : Database} {p key value r : Bytes}

theorem withPrefix_applyOp_insert (hp : ¬ p <+: key) :
    (db.applyOp (.insert key value)).withPrefix p = db.withPrefix p :=
  filter_insertEntry_of_not hp

theorem withPrefix_applyOp_delete (hp : ¬ p <+: key) :
    (db.applyOp (.delete key)).withPrefix p = db.withPrefix p :=
  filter_deleteEntry_of_not hp

theorem withPrefix_append (q : Bytes) :
    db.withPrefix (p ++ q) = (db.withPrefix p).filter fun e => p ++ q <+: e.1 := by
  rw [withPrefix, withPrefix, List.filter_filter]
  refine List.filter_congr fun e _ => ?_
  by_cases h : p ++ q <+: e.1
  · simp [h, (List.prefix_append p q).trans h]
  · simp [h]

/-- A key under `p` reads the same from two databases agreeing under `p`. -/
theorem get_eq_of_withPrefix_eq (h : db.withPrefix p = db'.withPrefix p) (hr : p <+: r) :
    db.get r = db'.get r := by
  refine Option.ext fun w => ?_
  rw [Option.mem_def, Option.mem_def, get_eq_some_iff, get_eq_some_iff]
  have hmem : ∀ d : Database, (r, w) ∈ d.entries ↔ (r, w) ∈ d.withPrefix p :=
    fun d => by simp [mem_withPrefix, hr]
  rw [hmem, hmem, h]

end Database

namespace BaseIndex

open BaseIndexIter

/-- Everything the index `idx` returns over `db'` it returns over `db`:
`get` and `contains` at every key, and every call of `next` on what `iter`
and `iter_from` return, for every argument. -/
structure SameView (idx : BaseIndex) (db db' : Database) : Prop where
  get : ∀ {K V : Type} [StorageKey K] [StorageValue V] (key : K),
    idx.get (V := V) db' key = idx.get db key
  contains : ∀ {K : Type} [StorageKey K] (key : K), idx.contains db' key = idx.contains db key
  iter : ∀ {K V P : Type} [StorageKey K] [StorageValue V] [StorageKey P] (subPrefix : P)
    (n : Nat),
    (idx.iter (K := K) (V := V) db' subPrefix).map (fun it => (it.advance n).next.1) =
      (idx.iter db subPrefix).map fun it => (it.advance n).next.1
  iterFrom : ∀ {K V P F : Type} [StorageKey K] [StorageValue V] [StorageKey P] [StorageKey F]
    (subPrefix : P) (from' : F) (n : Nat),
    (idx.iterFrom (K := K) (V := V) db' subPrefix from').map (fun it => (it.advance n).next.1) =
      (idx.iterFrom db subPrefix from').map fun it => (it.advance n).next.1

/-- **An index sees only its own keyspace.** -/
theorem sameView_of_withPrefix_eq {indexName : String} {ty : IndexType} {db db' : Database}
    (h : db.withPrefix (new indexName ty).nameBytes = db'.withPrefix (new indexName ty).nameBytes) :
    SameView (new indexName ty) db db' where
  get key := by
    simp only [get_new]
    rw [Database.get_eq_of_withPrefix_eq h (List.prefix_append _ _)]
  contains key := by
    simp only [contains_new]
    rw [Database.get_eq_of_withPrefix_eq h (List.prefix_append _ _)]
  iter {K V _} _ _ _ subPrefix n := by
    obtain ⟨it, hit, hrem⟩ := iter_new (K := K) (V := V) db indexName ty subPrefix
    obtain ⟨it', hit', hrem'⟩ := iter_new (K := K) (V := V) db' indexName ty subPrefix
    rw [hit, hit', Option.map_some', Option.map_some', next_advance, next_advance, hrem, hrem',
      Database.withPrefix_append, Database.withPrefix_append, h]
  iterFrom {K V _ _} _ _ _ _ subPrefix from' n := by
    obtain ⟨it, hit, hrem⟩ := iterFrom_new (K := K) (V := V) db indexName ty subPrefix from'
    obtain ⟨it', hit', hrem'⟩ := iterFrom_new (K := K) (V := V) db' indexName ty subPrefix from'
    rw [hit, hit', Option.map_some', Option.map_some', next_advance, next_advance, hrem, hrem',
      Database.withPrefix_append, Database.withPrefix_append, h]

/-- Neither name begins the other, so nothing written under one begins with
the other. -/
theorem not_isPrefix_append {a b w : Bytes} (hab : ¬ a <+: b) (hba : ¬ b <+: a) :
    ¬ b <+: a ++ w := fun h =>
  (List.prefix_or_prefix_of_prefix (List.prefix_append a w) h).elim hab hba

/-! ## `put` and `remove` -/

/-- **Isolation, for names neither of which begins the other.** A `put` or a
`remove` through the index `a` leaves everything the index `b` returns as it
was. -/
theorem put_remove_isolated {K V : Type} [StorageKey K] [StorageValue V] (db : Database)
    (a b : String) (ta tb : IndexType)
    (hab : ¬ (new a ta).nameBytes <+: (new b tb).nameBytes)
    (hba : ¬ (new b tb).nameBytes <+: (new a ta).nameBytes) (key : K) (value : V) :
    (∃ db', (new a ta).put db key value = some db' ∧ SameView (new b tb) db db') ∧
    ∃ db', (new a ta).remove db key = some db' ∧ SameView (new b tb) db db' :=
  ⟨⟨_, put_new a ta db key value, sameView_of_withPrefix_eq
      (Database.withPrefix_applyOp_insert (not_isPrefix_append hab hba)).symm⟩,
    ⟨_, remove_new a ta db key, sameView_of_withPrefix_eq
      (Database.withPrefix_applyOp_delete (not_isPrefix_append hab hba)).symm⟩⟩

theorem put_remove_isolated_a_b :
    (¬ (new "a" .map).nameBytes <+: (new "b" .map).nameBytes) ∧
    (¬ (new "b" .map).nameBytes <+: (new "a" .map).nameBytes) ∧
    ((∃ db', (new "a" .map).put Database.empty ([1] : Bytes) ([2] : Bytes) = some db' ∧
        SameView (new "b" .map) Database.empty db') ∧
      ∃ db', (new "a" .map).remove Database.empty ([1] : Bytes) = some db' ∧
        SameView (new "b" .map) Database.empty db') :=
  ⟨by decide, by decide, put_remove_isolated Database.empty "a" "b" .map .map (by decide)
    (by decide) ([1] : Bytes) ([2] : Bytes)⟩

/-- Two different names, one beginning the other: a `put` through `a` of the
key `b` is read by the index `ab` at the empty key. -/
theorem put_crosses_into_longer_name :
    (new "ab" .map).get (V := Bytes) Database.empty ([] : Bytes) = some none ∧
    (((new "a" .map).put Database.empty ([98] : Bytes) ([1] : Bytes)).bind fun db =>
      (new "ab" .map).get (V := Bytes) db ([] : Bytes)) = some (some [1]) := by
  decide

/-! ## `clear` -/

/-- **What `clear` does.** It keeps exactly the entries sorting before the
index's name, so the index afterwards returns what it returns over an empty
database. -/
theorem clear_spec (db : Database) (indexName : String) (ty : IndexType) :
    ∃ db', (new indexName ty).clear db = some db' ∧
      db'.entries = db.entries.filter (fun e => e.1 < (new indexName ty).nameBytes) ∧
      SameView (new indexName ty) Database.empty db' := by
  obtain ⟨db', hclear, hentries⟩ := entries_clear_new indexName ty db
  refine ⟨db', hclear, hentries, sameView_of_withPrefix_eq ?_⟩
  rw [Database.withPrefix, Database.withPrefix, hentries, List.filter_filter]
  refine (List.filter_eq_nil_iff.2 fun e _ => ?_).symm
  simpa using Bytes.le_of_isPrefix

/-- `clear` through `t` deletes the entry of `u`, which sorts after `t` and
does not begin with it. -/
theorem clear_deletes_next_index :
    ¬ (new "t" .map).nameBytes <+: [117] ∧ sampleDb.get [117] = some [8] ∧
    ((new "t" .map).clear sampleDb).map (fun db => db.get [117]) = some none := by
  decide

end BaseIndex

end ConsensusRs
