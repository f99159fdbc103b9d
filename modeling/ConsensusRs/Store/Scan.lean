import ConsensusRs.Store.Shared
/-!
# What an index's scans read off its map

`iter(subprefix)` and `iter_from(subprefix, from)` scan raw entries; over a
database holding the map `m` under an index's name (`Holds`), `iter(subprefix)`
yields the map's bindings at keys whose encoding begins with the
subprefix's, each once, in ascending order of the key's encoding
(`Holds.mem_scan_iff`, `Holds.sorted_scan`, with `Holds.reads`). Here
`iter_from(subprefix, from)` is read off `iter(subprefix)`: the ones at or
after `subprefix ++ from`, each key decoded again from its encoding past the
subprefix (`Holds.scanFrom_eq`). For every index of a store, after any run,
the map is the store's (`store_scans_refine_maps`).
-/

namespace ConsensusRs

namespace Holds

open BaseIndexIter

variable {K V : Type} [StorageKey K] [StorageValue V] {name : Bytes} {db : Database}
  {m : K → Option V}

variable (hkey : ∀ k : K, StorageKey.read (StorageKey.write k) = k)
include hkey

/-- **`iter_from` is `iter` cut at `q ++ r` and decoded past `q`.** What
`iter_from` yields under `q` from `r` is what `iter` yields under `q`, kept
from the first key whose encoding sorts at or after `q ++ r`, with each key
decoded again from its encoding past `q`. -/
theorem scanFrom_eq (h : Holds name db m) (q r : Bytes) :
    ((db.withPrefix (name ++ q)).filter (fun e => name ++ q ++ r ≤ e.1)).map
        (decodeAt (K := K) (V := V) (name ++ q).length) =
      (((db.withPrefix (name ++ q)).map (decodeAt name.length)).filter
          fun kv : K × V => q ++ r ≤ StorageKey.write kv.1).map
        fun kv => (StorageKey.read ((StorageKey.write kv.1).drop q.length), kv.2) := by
  rw [List.filter_map, List.map_map]
  have hcut : (db.withPrefix (name ++ q)).filter (fun e => name ++ q ++ r ≤ e.1) =
      (db.withPrefix (name ++ q)).filter
        ((fun kv : K × V => decide (q ++ r ≤ StorageKey.write kv.1)) ∘ decodeAt name.length) :=
    List.filter_congr fun e he => by
      obtain ⟨k, v, -, -, rfl⟩ := h.mem_withPrefix_append.1 he
      simp [decodeAt, hkey]
  rw [hcut]
  refine List.map_congr_left fun e he => ?_
  obtain ⟨k, v, -, -, rfl⟩ := h.mem_withPrefix_append.1 (List.mem_filter.1 he).1
  simp [decodeAt, hkey, ← List.drop_drop]

end Holds

namespace Store

open BaseIndex BaseIndexIter

variable {ι : Type} [DecidableEq ι] {K V : ι → Type} [∀ i, StorageKey (K i)]
  [∀ i, StorageValue (V i)] [∀ i, DecidableEq (K i)] {P F : Type} [StorageKey P] [StorageKey F]

/-- **Every scan of every index reads its map.** Over a database with
nothing under any index's name, after any interleaving of `put`, `remove`
and `clear` through a store's indexes, `iter(subprefix)` on the `i`th index
yields the bindings of its map in `denote` at the keys whose encoding
begins with the subprefix's, each once, ascending in the key's encoding;
and `iter_from(subprefix, from)` yields those of them whose encoding sorts
at or after `subprefix ++ from`, in the same order, each key decoded again
from its encoding past the subprefix. -/
theorem store_scans_refine_maps (s : Store ι) (db : Database)
    (hfresh : ∀ i, ∀ e ∈ db.entries, ¬ s.name i <+: e.1)
    (hkey : ∀ i (k : K i), StorageKey.read (StorageKey.write k) = k)
    (hval : ∀ i (v : V i), StorageValue.fromBytes (StorageValue.intoBytes v) = v)
    (ops : List (Σ i, IndexOp (K i) (V i))) :
    ∃ db', s.run db ops = some db' ∧ ∀ i (subPrefix : P), ∃ items : List (K i × V i),
      (∀ k v, (k, v) ∈ items ↔
        s.denote ops i k = some v ∧ StorageKey.write subPrefix <+: StorageKey.write k) ∧
      (items.map fun kv => StorageKey.write kv.1).Pairwise (· < ·) ∧
      (∃ it : BaseIndexIter (K i) (V i), (s.index i).iter db' subPrefix = some it ∧
        ∀ n, (it.advance n).next.1 = items[n]?) ∧
      ∀ from' : F, ∃ it : BaseIndexIter (K i) (V i),
        (s.index i).iterFrom db' subPrefix from' = some it ∧
        ∀ n, (it.advance n).next.1 =
          ((items.filter fun kv =>
              StorageKey.write subPrefix ++ StorageKey.write from' ≤ StorageKey.write kv.1).map
            fun kv => (StorageKey.read ((StorageKey.write kv.1).drop
              (StorageKey.write subPrefix).length), kv.2))[n]? := by
  obtain ⟨db', hrun, hh⟩ := holds_run (fun i => Function.LeftInverse.injective (hkey i)) ops
    (fun i => Holds.fresh (V := V i) (hfresh i))
  refine ⟨db', hrun, fun i subPrefix => ?_⟩
  obtain ⟨it, hit, hrem⟩ := iter_new (K := K i) (V := V i) db' (s.names i) (s.types i) subPrefix
  refine ⟨_, (hh i).mem_scan_iff (hkey i) (hval i) _, (hh i).sorted_scan (hkey i) _,
    ⟨it, hit, fun n => by rw [next_advance, hrem]; rfl⟩, fun from' => ?_⟩
  obtain ⟨it', hit', hrem'⟩ :=
    iterFrom_new (K := K i) (V := V i) db' (s.names i) (s.types i) subPrefix from'
  exact ⟨it', hit', fun n => by rw [next_advance, hrem', ← (hh i).scanFrom_eq (hkey i)]; rfl⟩

theorem store_scans_refine_maps_sample :
    (∀ i, ∀ e ∈ Database.empty.entries, ¬ sampleStore.name i <+: e.1) ∧
    ∃ db', sampleStore.run Database.empty sampleOps = some db' ∧
      ∀ i (subPrefix : Bytes), ∃ items : List (Bytes × Bytes),
        ∀ k v, (k, v) ∈ items ↔ sampleStore.denote sampleOps i k = some v ∧ subPrefix <+: k :=
  ⟨fun _ _ h => absurd h (List.not_mem_nil _),
    let ⟨db', hrun, h⟩ := store_scans_refine_maps (P := Bytes) (F := Bytes) sampleStore
      Database.empty (fun _ _ h => absurd h (List.not_mem_nil _)) (fun _ _ => rfl)
      (fun _ _ => rfl) sampleOps
    ⟨db', hrun, fun i p => let ⟨items, hmem, _⟩ := h i p; ⟨items, hmem⟩⟩⟩

end Store

end ConsensusRs
