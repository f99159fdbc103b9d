import ConsensusRs.Store.Bytes
/-!
# The ordered key/value database

`kvdb_rocksdb::Database` as the store uses it: the one column `COL = None`,
a finite map from byte keys to byte values held in ascending key order,
changed only through `DBTransaction` batches that `write` applies in order,
and read through `get` and the forward scan `iter_from_prefix`. The scan
starts at the first key at or after its argument and runs to the end of the
column: it does not stop where the argument stops being a prefix.

The one result the iterators above need is `scan_eq_filter`: when the seek
key begins with `p`, the entries a scan meets before the first key not
beginning with `p` are exactly the entries at or after the seek key that
begin with `p`.
-/

namespace ConsensusRs

/-- Entries strictly ascending in key, so each key at most once. -/
def SortedKeys (es : List (Bytes × Bytes)) : Prop :=
  es.Pairwise fun a b => a.1 < b.1

instance (es : List (Bytes × Bytes)) : Decidable (SortedKeys es) :=
  inferInstanceAs (Decidable (es.Pairwise _))

/-- `kvdb::DBOp`, without its column. -/
inductive DBOp where
  | insert (key value : Bytes)
  | delete (key : Bytes)

/-- `kvdb::DBTransaction`: the operations `Database::write` applies, in order. -/
structure DBTransaction where
  ops : List DBOp

namespace DBTransaction

/-- `DBTransaction::put_vec`. -/
def putVec (tx : DBTransaction) (key value : Bytes) : DBTransaction :=
  ⟨tx.ops ++ [.insert key value]⟩

/-- `DBTransaction::delete`. -/
def delete (tx : DBTransaction) (key : Bytes) : DBTransaction :=
  ⟨tx.ops ++ [.delete key]⟩

end DBTransaction

/-- One column of a `kvdb_rocksdb::Database`. The invariant is RocksDB's:
keys are unique and iterate in bytewise order. -/
structure Database where
  entries : List (Bytes × Bytes)
  sorted : SortedKeys entries

namespace Database

/-- The entries with `key` bound to `value`, in its place. -/
def insertEntry (key value : Bytes) : List (Bytes × Bytes) → List (Bytes × Bytes)
  | [] => [(key, value)]
  | e :: es =>
    if key < e.1 then (key, value) :: e :: es
    else if key = e.1 then (key, value) :: es
    else e :: insertEntry key value es

/-- The entries without `key`. -/
def deleteEntry (key : Bytes) (es : List (Bytes × Bytes)) : List (Bytes × Bytes) :=
  es.filter fun e => e.1 ≠ key

variable {key value k : Bytes} {es : List (Bytes × Bytes)}

theorem mem_insertEntry {e : Bytes × Bytes} (h : SortedKeys es) :
    e ∈ insertEntry key value es ↔ e = (key, value) ∨ e ∈ es ∧ e.1 ≠ key := by
  induction es with
  | nil => simp [insertEntry]
  | cons d es ih =>
    have hd : ∀ f ∈ es, d.1 < f.1 := (List.pairwise_cons.1 h).1
    rw [insertEntry]
    split_ifs with hlt heq
    · have : ∀ f ∈ es, key < f.1 := fun f hf => hlt.trans (hd f hf)
      constructor
      · rintro (_ | ⟨_, _ | ⟨_, hf⟩⟩)
        · exact .inl rfl
        · exact .inr ⟨.head _, hlt.ne'⟩
        · exact .inr ⟨.tail _ hf, (this _ hf).ne'⟩
      · rintro (rfl | ⟨hf, -⟩)
        exacts [.head _, .tail _ hf]
    · subst heq
      simp only [List.mem_cons]
      constructor
      · rintro (rfl | hf)
        exacts [.inl rfl, .inr ⟨.inr hf, (hd _ hf).ne'⟩]
      · rintro (rfl | ⟨rfl | hf, hne⟩)
        exacts [.inl rfl, absurd rfl hne, .inr hf]
    · rw [List.mem_cons, ih (List.pairwise_cons.1 h).2, List.mem_cons]
      constructor
      · rintro (rfl | rfl | ⟨hf, hne⟩)
        exacts [.inr ⟨.inl rfl, Ne.symm heq⟩, .inl rfl, .inr ⟨.inr hf, hne⟩]
      · rintro (rfl | ⟨rfl | hf, hne⟩)
        exacts [.inr (.inl rfl), .inl rfl, .inr (.inr ⟨hf, hne⟩)]

theorem sortedKeys_insertEntry (h : SortedKeys es) : SortedKeys (insertEntry key value es) := by
  induction es with
  | nil => simp [insertEntry, SortedKeys]
  | cons d es ih =>
    have hd : ∀ f ∈ es, d.1 < f.1 := (List.pairwise_cons.1 h).1
    have hes : SortedKeys es := (List.pairwise_cons.1 h).2
    rw [insertEntry]
    split_ifs with hlt heq
    · refine List.Pairwise.cons (fun f hf => ?_) h
      rcases List.mem_cons.1 hf with rfl | hf
      exacts [hlt, hlt.trans (hd f hf)]
    · subst heq
      exact List.Pairwise.cons hd hes
    · refine List.Pairwise.cons (fun f hf => ?_) (ih hes)
      rcases (mem_insertEntry hes).1 hf with rfl | ⟨hf, -⟩
      exacts [lt_of_le_of_ne (not_lt.1 hlt) (Ne.symm heq), hd f hf]

theorem sortedKeys_deleteEntry (h : SortedKeys es) : SortedKeys (deleteEntry key es) :=
  h.filter _

@[simp] theorem mem_deleteEntry {e : Bytes × Bytes} :
    e ∈ deleteEntry key es ↔ e ∈ es ∧ e.1 ≠ key := by
  simp [deleteEntry]

/-- `Database::get`. -/
def get (db : Database) (key : Bytes) : Option Bytes :=
  (db.entries.find? fun e => e.1 = key).map Prod.snd

/-- One operation of a batch. -/
def applyOp (db : Database) : DBOp → Database
  | .insert key value => ⟨insertEntry key value db.entries, sortedKeys_insertEntry db.sorted⟩
  | .delete key => ⟨deleteEntry key db.entries, sortedKeys_deleteEntry db.sorted⟩

/-- `Database::write`. The `io::Result` it returns is unwrapped by every
caller in the store; I/O failure is outside the model. -/
def write (db : Database) (tx : DBTransaction) : Database :=
  tx.ops.foldl applyOp db

/-- `Database::iter_from_prefix`: the forward scan from the first key at or
after `seek`, to the end of the column. Its `None`, for a closed database,
is outside the model. -/
def iterFromPrefix (db : Database) (seek : Bytes) : List (Bytes × Bytes) :=
  db.entries.dropWhile fun e => e.1 < seek

/-- A database `Database::open_default` creates in a fresh directory. -/
def empty : Database := ⟨[], List.Pairwise.nil⟩

/-- `Database::transaction`: an empty batch. -/
def transaction (_db : Database) : DBTransaction := ⟨[]⟩

/-! ## Reading a key -/

theorem find?_map_eq_some_iff (h : SortedKeys es) :
    (es.find? fun e => e.1 = k).map Prod.snd = some value ↔ (k, value) ∈ es := by
  induction es with
  | nil => simp
  | cons d es ih =>
    have hd : ∀ f ∈ es, d.1 < f.1 := (List.pairwise_cons.1 h).1
    by_cases hdk : d.1 = k
    · have hnot : (k, value) ∉ es := fun hm => (hd _ hm).ne hdk
      obtain ⟨dk, dv⟩ := d
      simp only at hdk
      subst hdk
      simp [hnot, eq_comm]
    · rw [List.find?_cons_of_neg _ (by simpa using hdk), ih (List.pairwise_cons.1 h).2,
        List.mem_cons]
      exact ⟨.inr, fun h' => h'.resolve_left fun he => hdk (by rw [← he])⟩

/-- **A read finds exactly the entry held.** -/
theorem get_eq_some_iff (db : Database) : db.get k = some value ↔ (k, value) ∈ db.entries :=
  find?_map_eq_some_iff db.sorted

theorem get_applyOp_insert (db : Database) :
    (db.applyOp (.insert key value)).get k = if k = key then some value else db.get k := by
  refine Option.ext fun w => ?_
  rw [Option.mem_def, Option.mem_def, get_eq_some_iff, applyOp, mem_insertEntry db.sorted]
  split_ifs with hk
  · subst hk; simp [eq_comm]
  · simp [get_eq_some_iff, hk]

theorem get_applyOp_delete (db : Database) :
    (db.applyOp (.delete key)).get k = if k = key then none else db.get k := by
  refine Option.ext fun w => ?_
  rw [Option.mem_def, Option.mem_def, get_eq_some_iff, applyOp, mem_deleteEntry]
  split_ifs with hk
  · simp [hk]
  · simp [get_eq_some_iff, hk]

/-! ## What a write leaves alone -/

theorem filter_insertEntry_of_not {p : Bytes} (hp : ¬ p <+: key) :
    (insertEntry key value es).filter (fun e => p <+: e.1) = es.filter fun e => p <+: e.1 := by
  induction es with
  | nil => simp [insertEntry, hp]
  | cons d es ih =>
    rw [insertEntry]
    split_ifs with hlt heq
    · simp [hp]
    · subst heq; simp [hp]
    · by_cases hd : p <+: d.1 <;> simp [hd, ih]

theorem filter_deleteEntry_of_not {p : Bytes} (hp : ¬ p <+: key) :
    (deleteEntry key es).filter (fun e => p <+: e.1) = es.filter fun e => p <+: e.1 := by
  rw [deleteEntry, List.filter_filter]
  refine List.filter_congr fun e _ => ?_
  by_cases hk : e.1 = key
  · simp [hk, hp]
  · simp [hk]

/-! ## Deleting a run of keys -/

theorem entries_write_deletes (db : Database) (ks : List Bytes) :
    (db.write ⟨ks.map .delete⟩).entries = db.entries.filter fun e => e.1 ∉ ks := by
  induction ks generalizing db with
  | nil => simp [write]
  | cons k ks ih =>
    rw [write, List.map_cons, List.foldl_cons]
    refine (ih (db.applyOp (.delete k))).trans ?_
    simp only [applyOp, deleteEntry, List.filter_filter, List.mem_cons, not_or]
    congr 1
    funext e
    rw [Bool.decide_and]
    exact Bool.and_comm _ _

/-! ## The scan -/

theorem dropWhile_eq_filter (h : SortedKeys es) (seek : Bytes) :
    es.dropWhile (fun e => e.1 < seek) = es.filter fun e => seek ≤ e.1 := by
  induction es with
  | nil => rfl
  | cons d es ih =>
    by_cases hd : d.1 < seek
    · rw [List.dropWhile_cons_of_pos (by simpa using hd), ih (List.pairwise_cons.1 h).2,
        List.filter_cons_of_neg (by simpa using hd)]
    · have hge : seek ≤ d.1 := not_lt.1 hd
      rw [List.dropWhile_cons_of_neg (by simpa using hd),
        List.filter_cons_of_pos (by simpa using hge), List.filter_eq_self.2]
      exact fun f hf => by
        simpa using hge.trans ((List.pairwise_cons.1 h).1 f hf).le

theorem mem_iterFromPrefix (db : Database) {seek : Bytes} {e : Bytes × Bytes} :
    e ∈ db.iterFromPrefix seek ↔ e ∈ db.entries ∧ seek ≤ e.1 := by
  rw [iterFromPrefix, dropWhile_eq_filter db.sorted]
  simp

theorem takeWhile_eq_filter {p seek : Bytes} (h : SortedKeys es) (hp : p <+: seek)
    (hge : ∀ e ∈ es, seek ≤ e.1) :
    es.takeWhile (fun e => p <+: e.1) = es.filter fun e => p <+: e.1 := by
  induction es with
  | nil => rfl
  | cons d es ih =>
    have hd : ∀ f ∈ es, d.1 < f.1 := (List.pairwise_cons.1 h).1
    by_cases hpd : p <+: d.1
    · rw [List.takeWhile_cons_of_pos (by simpa using hpd),
        List.filter_cons_of_pos (by simpa using hpd),
        ih (List.pairwise_cons.1 h).2 fun f hf => hge f (.tail _ hf)]
    · rw [List.takeWhile_cons_of_neg (by simpa using hpd),
        List.filter_cons_of_neg (by simpa using hpd), eq_comm, List.filter_eq_nil_iff]
      intro f hf hpf
      exact hpd (Bytes.isPrefix_of_le_of_le hp (by simpa using hpf) (hge d (.head _))
        (hd f hf).le)

/-- **What a prefix scan sees.** When the seek key begins with `p`, the scan
from it, cut at the first key not beginning with `p`, is the run of entries
at or after the seek key that begin with `p`. -/
theorem scan_eq_filter (db : Database) {p seek : Bytes} (hp : p <+: seek) :
    (db.iterFromPrefix seek).takeWhile (fun e => p <+: e.1) =
      db.entries.filter fun e => p <+: e.1 ∧ seek ≤ e.1 := by
  rw [iterFromPrefix, dropWhile_eq_filter db.sorted,
    takeWhile_eq_filter (db.sorted.filter _) hp (by simp), List.filter_filter]
  simp

end Database

end ConsensusRs
