import ConsensusRs.Store.Kvdb
/-!
# `BaseIndex`: a named keyspace over the database

`store/base_index.rs`. A `BaseIndex` reads and writes the shared database
under raw keys `name ++ index_id ++ key`, built by `prefix_key`; its
iterators scan from such a raw key and stop at the first key that does not
begin with the scan's own prefix. The database handle (`view:
Arc<Database>`) is passed to each operation explicitly, and an operation
that writes returns the database after it. A panic is `none`.

`prefix_key` is modelled down to its slices, since its `Some` branch copies
`index_id` into `prefix_key[name_len..index_len]` and not into
`[name_len..name_len + index_len]`: it returns exactly when there is no
`index_id` or the name is empty (`prefixKey_eq`, `prefixKey_spec`). That
branch is dead code: the fields are private and `new`, the only
constructor, sets no `index_id`, so every index the program holds lays its
keys out as `name ++ key` (`prefixKey_layout`).
-/

namespace ConsensusRs

/-- `StorageKey`: how a key is laid out inside a raw key. The trait's `size`
is the length of what `write` writes, so `write` and `read` are what is kept. -/
class StorageKey (K : Type) where
  write : K → Bytes
  read : Bytes → K

/-- `StorageKey::size`. -/
def StorageKey.size {K : Type} [StorageKey K] (key : K) : Nat :=
  (StorageKey.write key).length

/-- `StorageValue`: how a value is stored. -/
class StorageValue (V : Type) where
  intoBytes : V → Bytes
  fromBytes : Bytes → V

/-- `Vec<u8>` keys are their own bytes. -/
instance : StorageKey Bytes := ⟨id, id⟩

/-- `Vec<u8>` values are their own bytes. -/
instance : StorageValue Bytes := ⟨id, id⟩

/-- `String` and `str` keys are their UTF-8 bytes. `read` is
`from_utf8_unchecked` in the source, undefined on bytes that are not UTF-8;
the model reads those as the empty string. -/
instance : StorageKey String :=
  ⟨fun s => s.toUTF8.data.toList, fun b => (String.fromUTF8? ⟨b.toArray⟩).getD ""⟩

@[simp] theorem write_bytes (b : Bytes) : StorageKey.write b = b := rfl

@[simp] theorem read_bytes (b : Bytes) : (StorageKey.read b : Bytes) = b := rfl

@[simp] theorem write_emptyString : StorageKey.write "" = ([] : Bytes) := rfl

/-- `IndexType`, the kind of index a `BaseIndex` backs. -/
inductive IndexType where
  | entry | keySet | list | sparseList | map | proofList | proofMap | valueSet
  deriving DecidableEq, Repr

namespace IndexType

/-- `From<u8> for IndexType`; `none` is its panic on a corrupted byte. -/
def ofU8 : UInt8 → Option IndexType
  | 0 => some entry
  | 1 => some keySet
  | 2 => some list
  | 3 => some sparseList
  | 4 => some map
  | 5 => some proofList
  | 6 => some proofMap
  | 7 => some valueSet
  | _ => none

end IndexType

/-- `dst[lo..hi].copy_from_slice(src)`: it panics unless `lo ≤ hi ≤ dst.len()`
and `src` has exactly `hi - lo` bytes. -/
def copyFromSlice (dst : Bytes) (lo hi : Nat) (src : Bytes) : Option Bytes :=
  if lo ≤ hi ∧ hi ≤ dst.length ∧ src.length = hi - lo then
    some (dst.take lo ++ src ++ dst.drop hi)
  else none

/-- Copying `a` to the front of a zeroed buffer with room for it. -/
theorem copyFromSlice_replicate (a : Bytes) (m : Nat) :
    copyFromSlice (List.replicate (a.length + m) 0) 0 a.length a = some (a ++ List.replicate m 0) := by
  simp [copyFromSlice, List.drop_replicate]

/-- Copying `b` over the zeroed tail after `a`. -/
theorem copyFromSlice_append_replicate (a b : Bytes) :
    copyFromSlice (a ++ List.replicate b.length 0) a.length (a.length + b.length) b = some (a ++ b) := by
  simp [copyFromSlice]

/-- A slice `[lo..src.len()]` that does not start at `0` is too short for
`src`. -/
theorem copyFromSlice_eq_none_of_pos {dst src : Bytes} {lo : Nat} (h : 0 < lo) :
    copyFromSlice dst lo src.length src = none := by
  simp only [copyFromSlice]
  exact if_neg fun ⟨_, _, h'⟩ => by omega

/-- `BaseIndex`, without its `view`. -/
structure BaseIndex where
  name : String
  indexId : Option Bytes
  indexType : IndexType

/-- An iterator `iter` and `iter_from` return, yielding keys `K` and values
`V`. The slice `k[base_prefix_len..]` that `next` decodes is in bounds
because `base_prefix_len` never exceeds the prefix every yielded key begins
with. -/
structure BaseIndexIter (K V : Type) where
  baseIter : List (Bytes × Bytes)
  basePrefixLen : Nat
  indexId : Bytes
  ended : Bool
  basePrefixLen_le : basePrefixLen ≤ indexId.length

namespace BaseIndex

variable {K V P F : Type} [StorageKey K] [StorageValue V] [StorageKey P] [StorageKey F]

/-- `BaseIndex::new`: the only constructor, and it sets no `index_id`. -/
def new (indexName : String) (indexType : IndexType) : BaseIndex :=
  { name := indexName, indexId := none, indexType }

/-- `self.name.as_bytes()`; `self.name.len()` is its length. -/
def nameBytes (self : BaseIndex) : Bytes :=
  self.name.toUTF8.data.toList

/-- `BaseIndex::prefix_key`. -/
def prefixKey (self : BaseIndex) (key : K) : Option Bytes := do
  let indexLen := self.indexId.elim 0 List.length
  let nameLen := self.nameBytes.length
  let buf := List.replicate (nameLen + indexLen + StorageKey.size key) 0
  let buf ← copyFromSlice buf 0 nameLen self.nameBytes
  let buf ← match self.indexId with
    | some indexId => copyFromSlice buf nameLen indexLen indexId
    | none => pure buf
  copyFromSlice buf (nameLen + indexLen) buf.length (StorageKey.write key)

/-- **What `prefix_key` computes.** `name ++ index_id ++ key` when there is
no `index_id` or the name is empty; a panic otherwise, for the slice
`[name_len..index_len]` is then empty, reversed, or too short for the id. -/
theorem prefixKey_eq (self : BaseIndex) (key : K) :
    self.prefixKey key =
      if self.indexId = none ∨ self.nameBytes = [] then
        some (self.nameBytes ++ self.indexId.getD [] ++ StorageKey.write key)
      else none := by
  obtain ⟨name, _ | indexId, ty⟩ := self
  · simp only [prefixKey, Option.elim_none, Nat.add_zero, StorageKey.size, copyFromSlice_replicate,
      Option.bind_eq_bind, Option.some_bind, Option.pure_def, List.length_append,
      List.length_replicate, copyFromSlice_append_replicate]
    simp
  · simp only [prefixKey, Option.elim_some, StorageKey.size, Option.bind_eq_bind, Option.pure_def]
    rw [Nat.add_assoc, copyFromSlice_replicate, Option.some_bind]
    by_cases hn : BaseIndex.nameBytes ⟨name, some indexId, ty⟩ = []
    · rw [hn, List.nil_append, List.length_nil, copyFromSlice_replicate, Option.some_bind,
        Nat.zero_add, List.length_append, List.length_replicate, copyFromSlice_append_replicate]
      simp
    · rw [copyFromSlice_eq_none_of_pos (List.length_pos.2 hn)]
      simp [hn]

/-- Every index `new` builds lays its keys out as `name ++ key`. -/
@[simp] theorem prefixKey_new (indexName : String) (ty : IndexType) (key : K) :
    (new indexName ty).prefixKey key = some ((new indexName ty).nameBytes ++ StorageKey.write key) := by
  simp [prefixKey_eq, new]

theorem length_le_of_prefixKey {self : BaseIndex} {key : K} {r : Bytes}
    (h : self.prefixKey key = some r) :
    self.nameBytes.length + self.indexId.elim 0 List.length ≤ r.length := by
  rw [prefixKey_eq] at h
  split_ifs at h
  cases h
  obtain ⟨name, _ | indexId, ty⟩ := self <;> simp

/-- **When `prefix_key` returns, and what.** Exactly when there is no
`index_id` or the name is empty; it then returns `name ++ index_id ++ key`,
of length `name.len() + index_len + key.size()`, the length of the buffer
it allocates. -/
theorem prefixKey_spec (self : BaseIndex) (key : K) :
    ((self.prefixKey key).isSome ↔ self.indexId = none ∨ self.nameBytes = []) ∧
    ∀ r, self.prefixKey key = some r →
      r = self.nameBytes ++ self.indexId.getD [] ++ StorageKey.write key ∧
      r.length = self.nameBytes.length + self.indexId.elim 0 List.length + StorageKey.size key := by
  rw [prefixKey_eq]
  split_ifs with h
  · refine ⟨by simpa using h, fun r hr => ⟨(Option.some.inj hr).symm, ?_⟩⟩
    cases hr
    cases self.indexId <;> simp [StorageKey.size, Nat.add_assoc]
  · simpa using h

/-- `BaseIndex::get`. -/
def get (self : BaseIndex) (db : Database) (key : K) : Option (Option V) := do
  let key ← self.prefixKey key
  pure ((db.get key).map StorageValue.fromBytes)

/-- `BaseIndex::contains`. -/
def contains (self : BaseIndex) (db : Database) (key : K) : Option Bool := do
  let key ← self.prefixKey key
  pure (db.get key).isSome

/-- `BaseIndex::put`. -/
def put (self : BaseIndex) (db : Database) (key : K) (value : V) : Option Database := do
  let key ← self.prefixKey key
  pure (db.write (db.transaction.putVec key (StorageValue.intoBytes value)))

/-- `BaseIndex::remove`. -/
def remove (self : BaseIndex) (db : Database) (key : K) : Option Database := do
  let key ← self.prefixKey key
  pure (db.write (db.transaction.delete key))

/-- `BaseIndex::clear`: it deletes every key the scan from its prefix meets. -/
def clear (self : BaseIndex) (db : Database) : Option Database := do
  let seek ← self.prefixKey ""
  pure (db.write ((db.iterFromPrefix seek).foldl (fun tx item => tx.delete item.1) db.transaction))

/-- `BaseIndex::iter`. -/
def iter (self : BaseIndex) (db : Database) (subPrefix : P) : Option (BaseIndexIter K V) :=
  match h : self.prefixKey subPrefix with
  | none => none
  | some iterPrefix => some
    { baseIter := db.iterFromPrefix iterPrefix
      basePrefixLen := self.nameBytes.length + self.indexId.elim 0 List.length
      indexId := iterPrefix
      ended := false
      basePrefixLen_le := length_le_of_prefixKey h }

/-- `BaseIndex::iter_from`: the scan starts at `from'` written after the
subprefix, and the key it yields is what follows the subprefix. -/
def iterFrom (self : BaseIndex) (db : Database) (subPrefix : P) (from' : F) :
    Option (BaseIndexIter K V) := do
  let prefixBuf ← self.prefixKey subPrefix
  let basePrefixLen := prefixBuf.length
  let iterPrefix := prefixBuf ++ StorageKey.write from'
  pure
    { baseIter := db.iterFromPrefix iterPrefix
      basePrefixLen
      indexId := iterPrefix.take basePrefixLen
      ended := false
      basePrefixLen_le := by simp [iterPrefix] }

/-! ## The operations of an index from `new`

Each reads or writes the one raw key `name ++ key`, and `clear` deletes the
whole scan from `name`. -/

section New

variable (indexName : String) (ty : IndexType) (db : Database)

@[simp] theorem get_new (key : K) :
    (new indexName ty).get (V := V) db key =
      some ((db.get ((new indexName ty).nameBytes ++ StorageKey.write key)).map
        StorageValue.fromBytes) := by
  simp [get]

@[simp] theorem contains_new (key : K) :
    (new indexName ty).contains db key =
      some (db.get ((new indexName ty).nameBytes ++ StorageKey.write key)).isSome := by
  simp [contains]

@[simp] theorem put_new (key : K) (value : V) :
    (new indexName ty).put db key value =
      some (db.applyOp (.insert ((new indexName ty).nameBytes ++ StorageKey.write key)
        (StorageValue.intoBytes value))) := by
  simp [put, Database.write, Database.transaction, DBTransaction.putVec]

@[simp] theorem remove_new (key : K) :
    (new indexName ty).remove db key =
      some (db.applyOp (.delete ((new indexName ty).nameBytes ++ StorageKey.write key))) := by
  simp [remove, Database.write, Database.transaction, DBTransaction.delete]

theorem foldl_delete (items : List (Bytes × Bytes)) (tx : DBTransaction) :
    items.foldl (fun tx item => tx.delete item.1) tx =
      ⟨tx.ops ++ items.map fun item => .delete item.1⟩ := by
  induction items generalizing tx with
  | nil => simp
  | cons item items ih => rw [List.foldl_cons, ih]; simp [DBTransaction.delete]

theorem clear_new :
    (new indexName ty).clear db =
      some (db.write ⟨(db.iterFromPrefix (new indexName ty).nameBytes).map fun item =>
        .delete item.1⟩) := by
  simp only [clear, prefixKey_new, write_emptyString, List.append_nil, Option.pure_def,
    Option.bind_eq_bind, Option.some_bind]
  rw [foldl_delete]
  rfl

/-- **What `clear` deletes**: every entry whose raw key sorts at or after
the index name, whether or not it begins with it. -/
theorem entries_clear_new :
    ∃ db', (new indexName ty).clear db = some db' ∧
      db'.entries = db.entries.filter fun e => e.1 < (new indexName ty).nameBytes := by
  refine ⟨_, clear_new indexName ty db, ?_⟩
  have hops : ((db.iterFromPrefix (new indexName ty).nameBytes).map fun item =>
      DBOp.delete item.1) = ((db.iterFromPrefix (new indexName ty).nameBytes).map Prod.fst).map
        DBOp.delete := by simp
  rw [hops, Database.entries_write_deletes]
  refine List.filter_congr fun e he => ?_
  have hkey : e.1 ∈ (db.iterFromPrefix (new indexName ty).nameBytes).map Prod.fst ↔
      (new indexName ty).nameBytes ≤ e.1 := by
    constructor
    · intro h
      obtain ⟨e', he', hee'⟩ := List.mem_map.1 h
      rw [← hee']
      exact ((Database.mem_iterFromPrefix db).1 he').2
    · exact fun h => List.mem_map_of_mem _ ((Database.mem_iterFromPrefix db).2 ⟨he, h⟩)
  simp [hkey]

end New

end BaseIndex

namespace BaseIndexIter

variable {K V : Type} [StorageKey K] [StorageValue V]

/-- `BaseIndexIter::next`. The scan's next entry is consumed either way; one
that does not begin with `index_id` ends the iterator. -/
def next (it : BaseIndexIter K V) : Option (K × V) × BaseIndexIter K V :=
  if it.ended then (none, it)
  else
    match it.baseIter with
    | (k, v) :: rest =>
      if it.indexId <+: k then
        (some (StorageKey.read (k.drop it.basePrefixLen), StorageValue.fromBytes v),
          { it with baseIter := rest })
      else (none, { it with baseIter := rest, ended := true })
    | [] => (none, { it with ended := true })

end BaseIndexIter

end ConsensusRs
