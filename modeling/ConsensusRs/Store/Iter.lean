import ConsensusRs.Store.BaseIndex
/-!
# What an index iterator yields

`BaseIndexIter::next`, called again and again. One step of `next` yields the
head of what the iterator has `remaining` and leaves the tail
(`next_fst`, `remaining_next`); so the call after `n` others yields the
`n`-th item, and `None` forever once they run out (`next_advance`).

What `iter` and `iter_from` start with is read off the scan lemma
`Database.scan_eq_filter`: every entry whose raw key begins with the
iterator's prefix, from its seek key on, in key order. The two differ in
where they cut the raw key to decode it: `iter` after the index name,
`iter_from` after the whole of `prefix_key(subprefix)`.
-/

namespace ConsensusRs

namespace Database

/-- The entries whose raw key begins with `p`, in ascending key order. -/
def withPrefix (db : Database) (p : Bytes) : List (Bytes × Bytes) :=
  db.entries.filter fun e => p <+: e.1

theorem mem_withPrefix {db : Database} {p : Bytes} {e : Bytes × Bytes} :
    e ∈ db.withPrefix p ↔ e ∈ db.entries ∧ p <+: e.1 := by
  simp [withPrefix]

end Database

namespace BaseIndexIter

variable {K V : Type} [StorageKey K] [StorageValue V]

/-- How `next` decodes a raw entry: the key past its first `n` bytes, the
value whole. -/
def decodeAt (n : Nat) (e : Bytes × Bytes) : K × V :=
  (StorageKey.read (e.1.drop n), StorageValue.fromBytes e.2)

/-- What the iterator has left to yield. -/
def remaining (it : BaseIndexIter K V) : List (K × V) :=
  if it.ended then []
  else (it.baseIter.takeWhile fun e => it.indexId <+: e.1).map (decodeAt it.basePrefixLen)

/-- The iterator after `n` calls of `next`. -/
def advance (it : BaseIndexIter K V) : Nat → BaseIndexIter K V
  | 0 => it
  | n + 1 => advance it.next.2 n

/-! ## One step -/

/-- **`next` yields the head of what remains.** -/
theorem next_fst (it : BaseIndexIter K V) : it.next.1 = it.remaining.head? := by
  unfold next remaining
  split_ifs with hend
  · rfl
  · rcases hb : it.baseIter with _ | ⟨⟨k, v⟩, rest⟩
    · rfl
    · by_cases hk : it.indexId <+: k <;> simp [hk, decodeAt]

/-- **And leaves its tail.** -/
theorem remaining_next (it : BaseIndexIter K V) : it.next.2.remaining = it.remaining.tail := by
  unfold next
  split_ifs with hend
  · simp [remaining, hend]
  · rcases hb : it.baseIter with _ | ⟨⟨k, v⟩, rest⟩
    · simp [remaining, hend, hb]
    · by_cases hk : it.indexId <+: k <;> simp [remaining, hend, hb, hk]

/-! ## A run -/

theorem remaining_advance (it : BaseIndexIter K V) (n : Nat) :
    (it.advance n).remaining = it.remaining.drop n := by
  induction n generalizing it with
  | zero => rfl
  | succ n ih => rw [advance, ih, remaining_next, List.drop_tail]

/-- **The call after `n` others yields the `n`-th remaining item**, and
`None` from the first call past the end on. -/
theorem next_advance (it : BaseIndexIter K V) (n : Nat) :
    (it.advance n).next.1 = it.remaining[n]? := by
  rw [next_fst, remaining_advance, List.head?_drop]

end BaseIndexIter

namespace BaseIndex

variable {K V P F : Type} [StorageKey K] [StorageValue V] [StorageKey P] [StorageKey F]

open BaseIndexIter

/-- **What `iter` starts with.** Over a handle from `new`: every entry
whose raw key begins with `name ++ subprefix`, decoded past the name. -/
theorem iter_new (db : Database) (indexName : String) (ty : IndexType) (subPrefix : P) :
    ∃ it : BaseIndexIter K V, (new indexName ty).iter db subPrefix = some it ∧
      it.remaining = (db.withPrefix ((new indexName ty).nameBytes ++ StorageKey.write subPrefix)).map
        (decodeAt (new indexName ty).nameBytes.length) := by
  unfold iter
  split
  · simp_all
  · rename_i iterPrefix h
    rw [prefixKey_new, Option.some.injEq] at h
    subst h
    refine ⟨_, rfl, ?_⟩
    simp only [remaining, Bool.false_eq_true, ↓reduceIte, new, Option.elim, Nat.add_zero]
    rw [Database.scan_eq_filter db (List.prefix_refl _), Database.withPrefix]
    exact congrArg _ (List.filter_congr fun e _ => by
      simpa using fun h => Bytes.le_of_isPrefix h)

/-- **What `iter_from` starts with.** The entries whose raw key begins with
`name ++ subprefix` and sorts at or after `name ++ subprefix ++ from`,
decoded past `name ++ subprefix`. -/
theorem iterFrom_new (db : Database) (indexName : String) (ty : IndexType) (subPrefix : P)
    (from' : F) :
    ∃ it : BaseIndexIter K V, (new indexName ty).iterFrom db subPrefix from' = some it ∧
      it.remaining =
        ((db.withPrefix ((new indexName ty).nameBytes ++ StorageKey.write subPrefix)).filter
            fun e => (new indexName ty).nameBytes ++ StorageKey.write subPrefix ++
              StorageKey.write from' ≤ e.1).map
          (decodeAt ((new indexName ty).nameBytes ++ StorageKey.write subPrefix).length) := by
  refine ⟨_, by simp only [iterFrom, prefixKey_new]; rfl, ?_⟩
  simp only [remaining, Bool.false_eq_true, ↓reduceIte, List.take_left]
  rw [Database.scan_eq_filter db (List.prefix_append _ _), Database.withPrefix, List.filter_filter]
  exact congrArg _ (List.filter_congr fun e _ => by simp [Bool.and_comm])

/-- An entry under the index's name is what `get` finds at the key it
decodes to, when `write` undoes `read` on the rest of its raw key. -/
theorem get_new_decodeAt {db : Database} {indexName : String} {ty : IndexType}
    {e : Bytes × Bytes} (he : e ∈ db.entries) (hp : (new indexName ty).nameBytes <+: e.1)
    (hrw : StorageKey.write (StorageKey.read (K := K) (e.1.drop (new indexName ty).nameBytes.length)) =
      e.1.drop (new indexName ty).nameBytes.length) :
    (new indexName ty).get db (decodeAt (K := K) (V := V) (new indexName ty).nameBytes.length e).1 =
      some (some (decodeAt (K := K) (V := V) (new indexName ty).nameBytes.length e).2) := by
  obtain ⟨t, ht⟩ := hp
  have hkey : (new indexName ty).nameBytes ++ StorageKey.write
      (StorageKey.read (K := K) (e.1.drop (new indexName ty).nameBytes.length)) = e.1 := by
    rw [hrw, ← ht, List.drop_left]
  rw [get_new, decodeAt, hkey, (Database.get_eq_some_iff db).2 he]
  rfl

/-- **Draining `iter`.** Over every database and subprefix on which `write`
undoes `read` for the stored keys under `prefix_key(subprefix)`, the call
of `next` after `n` others yields the `n`-th entry whose raw key begins
with `prefix_key(subprefix)` (ascending, each once), and `None` from the
first call past the last one on; and each item `(k, v)` is what `get k`
returns. -/
theorem iter_drains (db : Database) (indexName : String) (ty : IndexType) (subPrefix : P)
    (hrw : ∀ e ∈ db.withPrefix ((new indexName ty).nameBytes ++ StorageKey.write subPrefix),
      StorageKey.write (StorageKey.read (K := K) (e.1.drop (new indexName ty).nameBytes.length)) =
        e.1.drop (new indexName ty).nameBytes.length) :
    SortedKeys (db.withPrefix ((new indexName ty).nameBytes ++ StorageKey.write subPrefix)) ∧
    ∃ it : BaseIndexIter K V, (new indexName ty).iter db subPrefix = some it ∧
      (∀ n, (it.advance n).next.1 =
        ((db.withPrefix ((new indexName ty).nameBytes ++ StorageKey.write subPrefix)).map
          (decodeAt (new indexName ty).nameBytes.length))[n]?) ∧
      ∀ (k : K) (v : V), (k, v) ∈
          (db.withPrefix ((new indexName ty).nameBytes ++ StorageKey.write subPrefix)).map
          (decodeAt (new indexName ty).nameBytes.length) →
        (new indexName ty).get db k = some (some v) := by
  obtain ⟨it, hit, hrem⟩ := iter_new (K := K) (V := V) db indexName ty subPrefix
  refine ⟨db.sorted.filter _, it, hit, fun n => by rw [next_advance, hrem], ?_⟩
  intro k v hkv
  obtain ⟨e, he, hdec⟩ := List.mem_map.1 hkv
  obtain ⟨hmem, hpe⟩ := Database.mem_withPrefix.1 he
  have hget := get_new_decodeAt (V := V) hmem ((List.prefix_append _ _).trans hpe) (hrw e he)
  rwa [hdec] at hget

/-- A database holding one entry of the index `t` (`[116]`), under the
subprefix `[1]`, and one of the index `u` after it. -/
def sampleDb : Database := ⟨[([116, 1], [7]), ([117], [8])], by decide⟩

theorem iter_drains_sampleDb :
    (∀ e ∈ sampleDb.withPrefix ((new "t" .map).nameBytes ++ StorageKey.write ([] : Bytes)),
      StorageKey.write (StorageKey.read (K := Bytes) (e.1.drop (new "t" .map).nameBytes.length)) =
        e.1.drop (new "t" .map).nameBytes.length) ∧
    (SortedKeys (sampleDb.withPrefix ((new "t" .map).nameBytes ++ StorageKey.write ([] : Bytes))) ∧
    ∃ it : BaseIndexIter Bytes Bytes, (new "t" .map).iter sampleDb ([] : Bytes) = some it ∧
      (∀ n, (it.advance n).next.1 =
        ((sampleDb.withPrefix ((new "t" .map).nameBytes ++ StorageKey.write ([] : Bytes))).map
          (decodeAt (new "t" .map).nameBytes.length))[n]?) ∧
      ∀ (k v : Bytes), (k, v) ∈
          (sampleDb.withPrefix ((new "t" .map).nameBytes ++ StorageKey.write ([] : Bytes))).map
            (decodeAt (new "t" .map).nameBytes.length) →
        (new "t" .map).get sampleDb k = some (some v)) :=
  ⟨fun _ _ => rfl, iter_drains sampleDb "t" .map ([] : Bytes) fun _ _ => rfl⟩

/-- **Draining `iter_from`, against `iter`.** Both run over the entries whose
raw key begins with `prefix_key(subprefix)`. `iter_from` yields those at or
after `prefix_key(subprefix) ++ from`, in the same order and with the same
values, but decodes each key past the whole of `prefix_key(subprefix)`,
where `iter` decodes past the name alone. -/
theorem iterFrom_drains (db : Database) (indexName : String) (ty : IndexType) (subPrefix : P)
    (from' : F) :
    (∃ it : BaseIndexIter K V, (new indexName ty).iter db subPrefix = some it ∧
      ∀ n, (it.advance n).next.1 =
        ((db.withPrefix ((new indexName ty).nameBytes ++ StorageKey.write subPrefix)).map
          (decodeAt (new indexName ty).nameBytes.length))[n]?) ∧
    ∃ it : BaseIndexIter K V, (new indexName ty).iterFrom db subPrefix from' = some it ∧
      ∀ n, (it.advance n).next.1 =
        (((db.withPrefix ((new indexName ty).nameBytes ++ StorageKey.write subPrefix)).filter
            fun e => (new indexName ty).nameBytes ++ StorageKey.write subPrefix ++
              StorageKey.write from' ≤ e.1).map
          (decodeAt ((new indexName ty).nameBytes ++ StorageKey.write subPrefix).length))[n]? := by
  obtain ⟨it, hit, hrem⟩ := iter_new (K := K) (V := V) db indexName ty subPrefix
  obtain ⟨it', hit', hrem'⟩ := iterFrom_new (K := K) (V := V) db indexName ty subPrefix from'
  exact ⟨⟨it, hit, fun n => by rw [next_advance, hrem]⟩,
    ⟨it', hit', fun n => by rw [next_advance, hrem']⟩⟩

/-- Under a subprefix that writes bytes, the key `iter_from` yields is not the
one `iter` yields for the same entry, and `get` does not find it. -/
theorem iterFrom_key_differs_from_iter :
    ((new "t" .map).iter (K := Bytes) (V := Bytes) sampleDb ([1] : Bytes)).map
        (fun it => it.next.1) = some (some ([1], [7])) ∧
    ((new "t" .map).iterFrom (K := Bytes) (V := Bytes) sampleDb ([1] : Bytes) ([] : Bytes)).map
        (fun it => it.next.1) = some (some ([], [7])) ∧
    (new "t" .map).get (V := Bytes) sampleDb ([] : Bytes) = some none := by
  decide

end BaseIndex

end ConsensusRs
