import ConsensusRs.Store.Isolation
import ConsensusRs.Store.Refinement
/-!
# Several indexes over one database

A node's store is one database under many indexes, each made by `new` with
a name of its own (`Store`). Callers issue `put`, `remove` and `clear`
through any of them, in any interleaving (`Store.run`). When no name begins
another, what every index returns after any run is read off a family of
finite maps, one per index (`Store.step`): `put` and `remove` change the map
of the index they go through and no other, and `clear` empties the map of
every index whose name sorts at or after its own, since the scan it deletes
runs past its own keyspace (`store_refines_maps`). The database itself is
then the maps' encoding, with those entries outside the names that no
`clear` reached (`store_entries_encode_maps`). Without `clear`, each
index holds exactly the finite map of the operations issued through it
(`store_isolates_indexes`), and two interleavings that send each index the
same operations leave the same database, with every key outside the names
as it was (`store_interleavings_agree`).
Over any database, `clear` through one index leaves an index whose name
sorts before it alone and empties one whose name sorts after it
(`clear_frame`).

The invariant is `Holds` for every index at once; one operation keeps it
(`holds_step`), so every run does (`holds_run`).
-/

namespace ConsensusRs

namespace Database

variable {db db' : Database} {n p : Bytes}

/-- Keeping the entries before `n` keeps everything under `p` when every key
under `p` sorts before `n`. -/
theorem withPrefix_filter_lt (h : db'.entries = db.entries.filter fun e => e.1 < n)
    (hlt : ∀ w, p ++ w < n) : db'.withPrefix p = db.withPrefix p := by
  rw [withPrefix, withPrefix, h, List.filter_filter]
  refine List.filter_congr fun e _ => ?_
  by_cases hp : p <+: e.1
  · obtain ⟨w, hw⟩ := hp
    simp [← hw, hlt w]
  · simp [hp]

/-- **A database is its entries' members.** Two databases holding the same
entries are the same, their entries being sorted by strictly increasing
key. -/
theorem eq_of_mem_iff (h : ∀ e, e ∈ db.entries ↔ e ∈ db'.entries) : db = db' := by
  obtain ⟨es, hs⟩ := db
  obtain ⟨es', hs'⟩ := db'
  have hnodup : ∀ {l : List (Bytes × Bytes)}, SortedKeys l → l.Nodup :=
    fun hl => hl.imp fun hlt heq => (heq ▸ hlt).false
  have : IsAntisymm (Bytes × Bytes) fun a b => a.1 < b.1 :=
    ⟨fun _ _ hab hba => absurd (hab.trans hba) (lt_irrefl _)⟩
  simp only [mk.injEq]
  exact List.eq_of_perm_of_sorted ((List.perm_ext_iff_of_nodup (hnodup hs) (hnodup hs')).2 h) hs hs'

end Database

namespace Holds

variable {K V : Type} [StorageKey K] [StorageValue V] {name : Bytes} {db db' : Database}
  {m : K → Option V}

/-- `Holds` reads only the entries under `name`. -/
theorem of_withPrefix_eq (h : db.withPrefix name = db'.withPrefix name) (hh : Holds name db m) :
    Holds name db' m where
  get_eq key := by
    rw [← Database.get_eq_of_withPrefix_eq h (List.prefix_append _ _)]
    exact hh.get_eq key
  keyed e he hp := by
    have he' : e ∈ db.withPrefix name := h ▸ Database.mem_withPrefix.2 ⟨he, hp⟩
    exact hh.keyed e (Database.mem_withPrefix.1 he').1 hp

/-- Under `name`, the entries are exactly the map's bindings. -/
theorem mem_entries_iff (h : Holds name db m) {e : Bytes × Bytes} (he : name <+: e.1) :
    e ∈ db.entries ↔ ∃ k v, m k = some v ∧
      e = (name ++ StorageKey.write k, StorageValue.intoBytes v) := by
  have hunder := h.mem_withPrefix_append (q := []) (e := e)
  rw [List.append_nil, Database.mem_withPrefix, and_iff_left he] at hunder
  simpa using hunder

end Holds

open BaseIndex BaseIndexIter

/-- **A store: indexes from `new` over one database**, one for each `i : ι`,
no index's name beginning another's. -/
structure Store (ι : Type) where
  names : ι → String
  types : ι → IndexType
  separated : ∀ i j, i ≠ j →
    ¬ (new (names i) (types i)).nameBytes <+: (new (names j) (types j)).nameBytes

namespace Store

variable {ι : Type} [DecidableEq ι] {K V : ι → Type} [∀ i, StorageKey (K i)]
  [∀ i, StorageValue (V i)] [∀ i, DecidableEq (K i)] (s : Store ι)

/-- The `i`th index. -/
def index (i : ι) : BaseIndex :=
  new (s.names i) (s.types i)

/-- The bytes every raw key of the `i`th index begins with. -/
def name (i : ι) : Bytes :=
  (s.index i).nameBytes

/-- Issuing `ops` in order, each through its own index; a panic ends the
run. -/
def run : Database → List (Σ i, IndexOp (K i) (V i)) → Option Database
  | db, [] => some db
  | db, ⟨i, op⟩ :: ops => (op.apply (s.index i) db).bind fun db' => run db' ops

/-- What one operation does to the store's finite maps. -/
def step (ms : (i : ι) → K i → Option (V i)) :
    (Σ i, IndexOp (K i) (V i)) → (i : ι) → K i → Option (V i)
  | ⟨i, .put key value⟩ => Function.update ms i (Function.update (ms i) key (some value))
  | ⟨i, .remove key⟩ => Function.update ms i (Function.update (ms i) key none)
  | ⟨i, .clear⟩ => fun j => if s.name i ≤ s.name j then fun _ => none else ms j

/-- The maps `ops` leave, from empty ones. -/
def denote (ops : List (Σ i, IndexOp (K i) (V i))) : (i : ι) → K i → Option (V i) :=
  ops.foldl s.step fun _ _ => none

/-- The operations of `ops` issued through the `i`th index, in order. -/
def opsAt (ops : List (Σ i, IndexOp (K i) (V i))) (i : ι) : List (IndexOp (K i) (V i)) :=
  ops.filterMap fun op => if h : op.1 = i then some (h ▸ op.2) else none

/-! ## The invariant over a run -/

variable {s}

/-- **One operation keeps `Holds` for every index.** -/
theorem holds_step (hinj : ∀ i, Function.Injective (StorageKey.write : K i → Bytes))
    {db : Database} {ms : (i : ι) → K i → Option (V i)} (h : ∀ i, Holds (s.name i) db (ms i))
    (op : Σ i, IndexOp (K i) (V i)) :
    ∃ db', op.2.apply (s.index op.1) db = some db' ∧ ∀ j, Holds (s.name j) db' (s.step ms op j) := by
  obtain ⟨i, op⟩ := op
  cases op with
  | put key value =>
    refine ⟨_, put_new _ _ db key value, fun j => ?_⟩
    by_cases hj : j = i
    · subst hj
      simpa [step] using (h j).put (hinj j) key value
    · rw [step, Function.update_noteq hj]
      exact (h j).of_withPrefix_eq (Database.withPrefix_applyOp_insert
        (not_isPrefix_append (s.separated i j (Ne.symm hj)) (s.separated j i hj))).symm
  | remove key =>
    refine ⟨_, remove_new _ _ db key, fun j => ?_⟩
    by_cases hj : j = i
    · subst hj
      simpa [step] using (h j).remove (hinj j) key
    · rw [step, Function.update_noteq hj]
      exact (h j).of_withPrefix_eq (Database.withPrefix_applyOp_delete
        (not_isPrefix_append (s.separated i j (Ne.symm hj)) (s.separated j i hj))).symm
  | clear =>
    obtain ⟨db', hclear, hentries⟩ := entries_clear_new (s.names i) (s.types i) db
    refine ⟨db', hclear, fun j => ?_⟩
    simp only [step]
    split_ifs with hle
    · exact Holds.clear hentries hle
    · have hij : j ≠ i := fun hji => hle (hji ▸ le_rfl)
      exact (h j).of_withPrefix_eq (Database.withPrefix_filter_lt hentries
        (Bytes.append_lt_of_lt (not_le.1 hle) (s.separated j i hij))).symm

/-- **Every run keeps `Holds` for every index.** -/
theorem holds_run (hinj : ∀ i, Function.Injective (StorageKey.write : K i → Bytes)) :
    ∀ (ops : List (Σ i, IndexOp (K i) (V i))) {db : Database} {ms : (i : ι) → K i → Option (V i)},
      (∀ i, Holds (s.name i) db (ms i)) →
      ∃ db', s.run db ops = some db' ∧ ∀ i, Holds (s.name i) db' (ops.foldl s.step ms i)
  | [], db, _, h => ⟨db, rfl, h⟩
  | op :: ops, _, _, h => by
    obtain ⟨db₁, h₁, hh₁⟩ := holds_step hinj h op
    obtain ⟨db₂, h₂, hh₂⟩ := holds_run hinj ops hh₁
    obtain ⟨i, op⟩ := op
    exact ⟨db₂, by simp [run, h₁, h₂], hh₂⟩

/-! ## Operations through one index, among others -/

omit [∀ i, StorageKey (K i)] [∀ i, StorageValue (V i)] in
/-- Without `clear`, the `i`th map is what the operations issued through the
`i`th index make of it. -/
theorem foldl_step_of_no_clear :
    ∀ (ops : List (Σ i, IndexOp (K i) (V i))), (∀ op ∈ ops, op.2 ≠ .clear) →
      ∀ (ms : (i : ι) → K i → Option (V i)) (i : ι),
        ops.foldl s.step ms i = (opsAt ops i).foldl IndexOp.step (ms i)
  | [], _, _, _ => rfl
  | ⟨j, op⟩ :: ops, hops, ms, i => by
    have hop : op ≠ .clear := hops _ (List.mem_cons_self _ _)
    rw [List.foldl_cons, foldl_step_of_no_clear ops (fun o ho => hops o (List.mem_cons_of_mem _ ho))]
    by_cases hj : j = i
    · subst hj
      cases op with
      | put key value => simp [opsAt, step, IndexOp.step]
      | remove key => simp [opsAt, step, IndexOp.step]
      | clear => exact absurd rfl hop
    · have hij : i ≠ j := Ne.symm hj
      cases op with
      | put key value => simp [opsAt, step, hj, Function.update_noteq hij]
      | remove key => simp [opsAt, step, hj, Function.update_noteq hij]
      | clear => exact absurd rfl hop

/-! ## What every index returns -/

/-- **A store is a family of finite maps.** Over a database with nothing
under any index's name, after any interleaving of `put`, `remove` and
`clear` through the store's indexes, every index returns what its map in
`denote` holds: `get` its value, `contains` whether it has one, and
`iter("")` each key once, with its value, in ascending order of the key's
encoding. `clear` through an index empties the map of every index whose
name sorts at or after its own. -/
theorem store_refines_maps (s : Store ι) (db : Database)
    (hfresh : ∀ i, ∀ e ∈ db.entries, ¬ s.name i <+: e.1)
    (hkey : ∀ i (k : K i), StorageKey.read (StorageKey.write k) = k)
    (hval : ∀ i (v : V i), StorageValue.fromBytes (StorageValue.intoBytes v) = v)
    (ops : List (Σ i, IndexOp (K i) (V i))) :
    ∃ db', s.run db ops = some db' ∧ ∀ i,
      (∀ k : K i, (s.index i).get db' k = some (s.denote ops i k)) ∧
      (∀ k : K i, (s.index i).contains db' k =
        ((s.index i).get (V := V i) db' k).map Option.isSome) ∧
      ∃ (it : BaseIndexIter (K i) (V i)) (items : List (K i × V i)),
        (s.index i).iter db' "" = some it ∧
        (∀ n, (it.advance n).next.1 = items[n]?) ∧
        (∀ k v, (k, v) ∈ items ↔ s.denote ops i k = some v) ∧
        (items.map fun kv => StorageKey.write kv.1).Pairwise (· < ·) := by
  obtain ⟨db', hrun, hh⟩ := holds_run (fun i => Function.LeftInverse.injective (hkey i)) ops
    (fun i => Holds.fresh (V := V i) (hfresh i))
  exact ⟨db', hrun, fun i => (hh i).reads (hkey i) (hval i)⟩

/-- Two indexes, `t` and `u`, over one byte-string codec. -/
def sampleStore : Store Bool where
  names b := if b then "u" else "t"
  types _ := .map
  separated := by decide

/-- A `put` through each index, then a `clear` through `t`. -/
def sampleOps : List (Σ _ : Bool, IndexOp Bytes Bytes) :=
  [⟨false, .put [1] [7]⟩, ⟨true, .put [2] [8]⟩, ⟨false, .clear⟩]

theorem store_refines_maps_sample :
    (∀ i, ∀ e ∈ Database.empty.entries, ¬ sampleStore.name i <+: e.1) ∧
    ∃ db', sampleStore.run Database.empty sampleOps = some db' ∧
      ∀ i (k : Bytes), (sampleStore.index i).get db' k = some (sampleStore.denote sampleOps i k) :=
  ⟨fun _ _ h => absurd h (List.not_mem_nil _),
    let ⟨db', hrun, h⟩ := store_refines_maps sampleStore Database.empty
      (fun _ _ h => absurd h (List.not_mem_nil _)) (fun _ _ => rfl) (fun _ _ => rfl) sampleOps
    ⟨db', hrun, fun i => (h i).1⟩⟩

/-- The `put` through `u` survives the `put` through `t`, and not the
`clear` through `t`, since `u` sorts after `t`. -/
example : sampleStore.denote (sampleOps.take 2) true [2] = some [8] ∧
    sampleStore.denote sampleOps true [2] = none := by
  decide

/-- **Without `clear`, the indexes of a store are independent finite maps.**
Under any interleaving of `put` and `remove` through the store's indexes,
over a database with nothing under any index's name, each index returns the
finite map of the operations issued through it: no update through it is
lost, and none through another index shows. -/
theorem store_isolates_indexes (s : Store ι) (db : Database)
    (hfresh : ∀ i, ∀ e ∈ db.entries, ¬ s.name i <+: e.1)
    (hkey : ∀ i (k : K i), StorageKey.read (StorageKey.write k) = k)
    (hval : ∀ i (v : V i), StorageValue.fromBytes (StorageValue.intoBytes v) = v)
    (ops : List (Σ i, IndexOp (K i) (V i))) (hops : ∀ op ∈ ops, op.2 ≠ .clear) :
    ∃ db', s.run db ops = some db' ∧
      ∀ i (k : K i), (s.index i).get db' k = some (IndexOp.denote (opsAt ops i) k) := by
  obtain ⟨db', hrun, hh⟩ := holds_run (fun i => Function.LeftInverse.injective (hkey i)) ops
    (fun i => Holds.fresh (V := V i) (hfresh i))
  refine ⟨db', hrun, fun i k => ?_⟩
  have hget := (hh i).get_new_eq (hval i) k
  rw [foldl_step_of_no_clear ops hops] at hget
  exact hget

omit [DecidableEq ι] [∀ i, DecidableEq (K i)] in
/-- An operation through the `i`th index leaves an entry outside its name
as it was, unless it is a `clear` and the entry sorts at or after the
name. -/
theorem mem_apply_of_outside {i : ι} {op : IndexOp (K i) (V i)} {db db' : Database}
    (happ : op.apply (s.index i) db = some db') {e : Bytes × Bytes} (he : ¬ s.name i <+: e.1) :
    e ∈ db'.entries ↔ e ∈ db.entries ∧ (op = .clear → e.1 < s.name i) := by
  have hne : ∀ w, e.1 ≠ (new (s.names i) (s.types i)).nameBytes ++ w := fun w h =>
    he (h ▸ List.prefix_append _ _)
  cases op with
  | put key value =>
    simp only [IndexOp.apply, index, put_new, Option.some.injEq] at happ
    subst happ
    rw [← Database.get_eq_some_iff, ← Database.get_eq_some_iff, Database.get_applyOp_insert,
      if_neg (hne _)]
    simp
  | remove key =>
    simp only [IndexOp.apply, index, remove_new, Option.some.injEq] at happ
    subst happ
    rw [← Database.get_eq_some_iff, ← Database.get_eq_some_iff, Database.get_applyOp_delete,
      if_neg (hne _)]
    simp
  | clear =>
    obtain ⟨db'', hclear, hentries⟩ := entries_clear_new (s.names i) (s.types i) db
    obtain rfl : db'' = db' := Option.some.inj (hclear.symm.trans happ)
    rw [hentries, List.mem_filter, decide_eq_true_iff]
    exact and_congr_right fun _ => (imp_iff_right rfl).symm

omit [DecidableEq ι] [∀ i, DecidableEq (K i)] in
/-- **A run reaches outside the names only by `clear`.** An entry outside
every index's name is there after a run exactly when it was there before
and sorts before the name of every index a `clear` of the run went
through. -/
theorem mem_run_of_outside :
    ∀ (ops : List (Σ i, IndexOp (K i) (V i))) {db db' : Database}, s.run db ops = some db' →
      ∀ e : Bytes × Bytes, (∀ i, ¬ s.name i <+: e.1) →
        (e ∈ db'.entries ↔ e ∈ db.entries ∧ ∀ op ∈ ops, op.2 = .clear → e.1 < s.name op.1)
  | [], _, _, hrun, _, _ => by cases hrun; simp
  | ⟨i, op⟩ :: ops, _, _, hrun, e, he => by
    rw [run, Option.bind_eq_some] at hrun
    obtain ⟨db₁, h₁, h₂⟩ := hrun
    rw [mem_run_of_outside ops h₂ e he, mem_apply_of_outside h₁ (he i), List.forall_mem_cons,
      and_assoc]

omit [DecidableEq ι] [∀ i, DecidableEq (K i)] in
/-- A run without `clear` leaves every raw key outside the indexes' names as
it was. -/
theorem get_run_of_outside (ops : List (Σ i, IndexOp (K i) (V i))) {db db' : Database}
    (hops : ∀ op ∈ ops, op.2 ≠ .clear) (hrun : s.run db ops = some db') (r : Bytes)
    (hr : ∀ i, ¬ s.name i <+: r) : db'.get r = db.get r :=
  Option.ext fun w => by
    rw [Option.mem_def, Option.mem_def, Database.get_eq_some_iff, Database.get_eq_some_iff,
      mem_run_of_outside ops hrun (r, w) hr, and_iff_left fun op hop hc => absurd hc (hops op hop)]

/-- **Interleavings without `clear` agree.** Over a database with nothing
under any index's name, two runs of `put` and `remove` through a store's
indexes that send each index the same operations in the same order leave
the same database, entry for entry, however they interleave; and such a run
leaves every raw key outside the indexes' names as it was. -/
theorem store_interleavings_agree (s : Store ι) (db : Database)
    (hfresh : ∀ i, ∀ e ∈ db.entries, ¬ s.name i <+: e.1)
    (hkey : ∀ i (k : K i), StorageKey.read (StorageKey.write k) = k)
    (ops ops' : List (Σ i, IndexOp (K i) (V i))) (hops : ∀ op ∈ ops, op.2 ≠ .clear)
    (hops' : ∀ op ∈ ops', op.2 ≠ .clear) (hsame : ∀ i, opsAt ops i = opsAt ops' i) :
    s.run db ops = s.run db ops' ∧
      ∀ db', s.run db ops = some db' → ∀ r, (∀ i, ¬ s.name i <+: r) → db'.get r = db.get r := by
  refine ⟨?_, fun db' hrun r hr => get_run_of_outside ops hops hrun r hr⟩
  have hinj := fun i => Function.LeftInverse.injective (hkey i)
  obtain ⟨d, hd, hh⟩ := holds_run hinj ops (fun i => Holds.fresh (V := V i) (hfresh i))
  obtain ⟨d', hd', hh'⟩ := holds_run hinj ops' (fun i => Holds.fresh (V := V i) (hfresh i))
  rw [hd, hd']
  refine congrArg some (Database.eq_of_mem_iff fun e => ?_)
  by_cases he : ∃ i, s.name i <+: e.1
  · obtain ⟨i, hi⟩ := he
    rw [(hh i).mem_entries_iff hi, (hh' i).mem_entries_iff hi, foldl_step_of_no_clear ops hops,
      foldl_step_of_no_clear ops' hops', hsame]
  · have hout : ∀ i, ¬ s.name i <+: e.1 := fun i hi => he ⟨i, hi⟩
    rw [← Database.get_eq_some_iff, ← Database.get_eq_some_iff,
      get_run_of_outside ops hops hd e.1 hout, get_run_of_outside ops' hops' hd' e.1 hout]

theorem store_interleavings_agree_sample :
    (∀ op ∈ sampleOps.take 2, op.2 ≠ .clear) ∧ (∀ op ∈ (sampleOps.take 2).reverse, op.2 ≠ .clear) ∧
    (∀ i, opsAt (sampleOps.take 2) i = opsAt (sampleOps.take 2).reverse i) ∧
    sampleStore.run Database.empty (sampleOps.take 2) =
      sampleStore.run Database.empty (sampleOps.take 2).reverse ∧
    ∀ db', sampleStore.run Database.empty (sampleOps.take 2) = some db' →
      ∀ r, (∀ i, ¬ sampleStore.name i <+: r) → db'.get r = Database.empty.get r :=
  ⟨by decide, by decide, by decide, store_interleavings_agree sampleStore Database.empty
    (fun _ _ h => absurd h (List.not_mem_nil _)) (fun _ _ => rfl) _ _ (by decide) (by decide)
    (by decide)⟩

theorem store_isolates_indexes_sample :
    (∀ op ∈ sampleOps.take 2, op.2 ≠ .clear) ∧
    ∃ db', sampleStore.run Database.empty (sampleOps.take 2) = some db' ∧
      ∀ i (k : Bytes), (sampleStore.index i).get db' k =
        some (IndexOp.denote (opsAt (sampleOps.take 2) i) k) :=
  ⟨by decide, store_isolates_indexes sampleStore Database.empty
    (fun _ _ h => absurd h (List.not_mem_nil _)) (fun _ _ => rfl) (fun _ _ => rfl) _ (by decide)⟩

/-- **The database is the store's maps, encoded.** Over a database with
nothing under any index's name, after any interleaving of `put`, `remove`
and `clear` through a store's indexes, the database holds exactly two kinds
of entry: for each binding of the `i`th map in `denote`, the `i`th index's
name and the key's encoding with the value's bytes; and each entry it held
before, as long as every `clear` of the run went through an index whose
name sorts after its key. No stale entry is left under any name, and
nothing outside the names is written. -/
theorem store_entries_encode_maps (s : Store ι) (db : Database)
    (hfresh : ∀ i, ∀ e ∈ db.entries, ¬ s.name i <+: e.1)
    (hkey : ∀ i (k : K i), StorageKey.read (StorageKey.write k) = k)
    (ops : List (Σ i, IndexOp (K i) (V i))) :
    ∃ db', s.run db ops = some db' ∧ ∀ e, e ∈ db'.entries ↔
      (∃ i k v, s.denote ops i k = some v ∧
        e = (s.name i ++ StorageKey.write k, StorageValue.intoBytes v)) ∨
      (e ∈ db.entries ∧ ∀ op ∈ ops, op.2 = .clear → e.1 < s.name op.1) := by
  obtain ⟨db', hrun, hh⟩ := holds_run (fun i => Function.LeftInverse.injective (hkey i)) ops
    (fun i => Holds.fresh (V := V i) (hfresh i))
  refine ⟨db', hrun, fun e => ?_⟩
  by_cases he : ∃ i, s.name i <+: e.1
  · obtain ⟨i, hi⟩ := he
    rw [(hh i).mem_entries_iff hi]
    constructor
    · rintro ⟨k, v, hv, rfl⟩
      exact .inl ⟨i, k, v, hv, rfl⟩
    · rintro (⟨j, k, v, hv, rfl⟩ | ⟨hmem, -⟩)
      · by_cases hji : j = i
        · subst hji
          exact ⟨k, v, hv, rfl⟩
        · exact absurd hi (not_isPrefix_append (s.separated j i hji) (s.separated i j (Ne.symm hji)))
      · exact absurd hi (hfresh i e hmem)
  · have hout : ∀ i, ¬ s.name i <+: e.1 := fun i hi => he ⟨i, hi⟩
    rw [mem_run_of_outside ops hrun e hout, or_iff_right]
    rintro ⟨i, k, v, -, rfl⟩
    exact hout i (List.prefix_append _ _)

theorem store_entries_encode_maps_sample :
    (∀ i, ∀ e ∈ Database.empty.entries, ¬ sampleStore.name i <+: e.1) ∧
    ∃ db', sampleStore.run Database.empty sampleOps = some db' ∧ ∀ e, e ∈ db'.entries ↔
      ∃ i k v, sampleStore.denote sampleOps i k = some v ∧ e = (sampleStore.name i ++ k, v) :=
  ⟨fun _ _ h => absurd h (List.not_mem_nil _),
    let ⟨db', hrun, h⟩ := store_entries_encode_maps sampleStore Database.empty
      (fun _ _ h => absurd h (List.not_mem_nil _)) (fun _ _ => rfl) sampleOps
    ⟨db', hrun, fun e => (h e).trans (or_iff_left fun ⟨hmem, _⟩ => List.not_mem_nil _ hmem)⟩⟩

end Store

/-! ## `clear` and the other indexes, over any database -/

namespace BaseIndex

/-- **What `clear` does to another index.** Over every database, `clear`
through `a` leaves everything an index `b` returns as it was when `b`'s
name sorts before `a`'s without beginning it; and when `b`'s name sorts at
or after `a`'s, it leaves `b` returning what it returns over an empty
database. -/
theorem clear_frame (db : Database) (a b : String) (ta tb : IndexType) :
    ∃ db', (new a ta).clear db = some db' ∧
      ((new b tb).nameBytes < (new a ta).nameBytes →
        ¬ (new b tb).nameBytes <+: (new a ta).nameBytes → SameView (new b tb) db db') ∧
      ((new a ta).nameBytes ≤ (new b tb).nameBytes → SameView (new b tb) Database.empty db') := by
  obtain ⟨db', hclear, hentries⟩ := entries_clear_new a ta db
  refine ⟨db', hclear, fun hlt hp => sameView_of_withPrefix_eq
    (Database.withPrefix_filter_lt hentries (Bytes.append_lt_of_lt hlt hp)).symm,
    fun hle => sameView_of_withPrefix_eq ?_⟩
  rw [Database.withPrefix, Database.withPrefix, hentries, List.filter_filter]
  refine (List.filter_eq_nil_iff.2 fun e _ => ?_).symm
  simpa using fun h => hle.trans (Bytes.le_of_isPrefix h)

theorem clear_frame_sampleDb :
    ((new "t" .map).nameBytes < (new "u" .map).nameBytes ∧
      ¬ (new "t" .map).nameBytes <+: (new "u" .map).nameBytes ∧
      ∃ db', (new "u" .map).clear sampleDb = some db' ∧ SameView (new "t" .map) sampleDb db') ∧
    ((new "t" .map).nameBytes ≤ (new "u" .map).nameBytes ∧
      ∃ db', (new "t" .map).clear sampleDb = some db' ∧
        SameView (new "u" .map) Database.empty db') :=
  have hlt : (new "t" .map).nameBytes < (new "u" .map).nameBytes := by decide
  have hp : ¬ (new "t" .map).nameBytes <+: (new "u" .map).nameBytes := by decide
  ⟨⟨hlt, hp, let ⟨db', h, h₁, _⟩ := clear_frame sampleDb "u" "t" .map .map; ⟨db', h, h₁ hlt hp⟩⟩,
    ⟨hlt.le, let ⟨db', h, _, h₂⟩ := clear_frame sampleDb "t" "u" .map .map; ⟨db', h, h₂ hlt.le⟩⟩⟩

end BaseIndex

end ConsensusRs
