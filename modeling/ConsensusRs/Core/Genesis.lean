import ConsensusRs.Core.Ledger
/-!
# Storing the genesis block

`core/genesis.rs`. `store_genesis_block` returns at once when the ledger
has a genesis block. Otherwise it sets the ledger's validators from the
config, then parses the proposer and the epoch time, either of which can
return an `Err`, then builds the header, whose gas limit is the `u64` sum
`gas_used + 10`, and stores the block.

The parsers it calls (`common::string_to_address`, `chrono`'s
`DateTime::from_str` and `timestamp()`), the `EMPTY_HASH` constant and the
block hash are not in the repository and are parameters here. A panic is
`none`: an `unwrap` on a validator that does not parse, and, in a debug
build, the overflow of `gas_used + 10`.
-/

namespace ConsensusRs

/-- How a build treats `u64` overflow: a debug build panics, a release
build wraps. -/
inductive Profile where
  | debug
  | release

/-- `a + b` on `u64`; `none` is the debug build's overflow panic. -/
def addU64 : Profile → UInt64 → UInt64 → Option UInt64
  | .debug, a, b => if a.toNat + b.toNat < UInt64.size then some (a + b) else none
  | .release, a, b => some (a + b)

/-- `t as u64` for an `i64`: its two's complement bits. -/
def castI64 (t : Int) : UInt64 :=
  UInt64.ofNat (Int.emod t (Int.ofNat UInt64.size)).toNat

/-- `config::GenesisConfig`, whose declaration is not in the repository: the
fields `store_genesis_block` reads, `epoch_time` as its `to_string()`. -/
structure GenesisConfig where
  validator : List String
  proposer : String
  epochTime : String
  extra : String
  gasUsed : UInt64

theorem uint64_toNat_add (a b : UInt64) : (a + b).toNat = (a.toNat + b.toNat) % UInt64.size := by
  simp only [UInt64.add_def, UInt64.toNat, BitVec.toNat_add]

theorem uint64_lt_iff (a b : UInt64) : a < b ↔ a.toNat < b.toNat := by
  rw [UInt64.lt_def, BitVec.lt_def]; rfl

/-- `a + b` panics exactly in a debug build, and exactly when the sum
leaves `u64`. -/
theorem addU64_eq_none_iff {profile : Profile} {a b : UInt64} :
    addU64 profile a b = none ↔ profile = .debug ∧ UInt64.size ≤ a.toNat + b.toNat := by
  cases profile <;> simp [addU64]

/-- What `a + b` returns is the sum modulo `2^64`. -/
theorem toNat_of_addU64 {profile : Profile} {a b c : UInt64} (h : addU64 profile a b = some c) :
    c.toNat = (a.toNat + b.toNat) % UInt64.size := by
  rw [← uint64_toNat_add]
  cases profile
  · simp only [addU64] at h
    split_ifs at h
    exact congrArg _ (Option.some.inj h).symm
  · exact congrArg _ (Option.some.inj h).symm

/-- An address parser for the runs below, refusing only the empty string. -/
def sampleAddress (s : String) : Except String String :=
  if s = "" then .error "invalid address" else .ok s

/-- The ledger of a fresh store: no blocks, no validators. -/
def freshLedger : Ledger String Unit Unit :=
  ⟨⟨0, ()⟩, [], []⟩

section StoreGenesisBlock

variable {Address Hash Tx : Type}
variable (stringToAddress : String → Except String Address)
variable (parseTimestamp : String → Except String Int)
variable (emptyHash : Hash) (hash : Block Address Hash Tx → Hash)

/-- `store_genesis_block`: its `Result` and the ledger it leaves behind. The
result of `add_genesis_block` is dropped. -/
def storeGenesisBlock (profile : Profile) (config : GenesisConfig)
    (ledger : Ledger Address Hash Tx) : Option (Except String Unit × Ledger Address Hash Tx) :=
  match ledger.getGenesisBlock with
  | some _ => some (.ok (), ledger.reloadMeta hash)
  | none =>
    match config.validator.mapM stringToAddress with
    | .error _ => none
    | .ok validators =>
      let ledger := ledger.addValidators validators
      match stringToAddress config.proposer with
      | .error err => some (.error err, ledger)
      | .ok proposer =>
        match parseTimestamp config.epochTime with
        | .error err => some (.error err, ledger)
        | .ok timestamp =>
          match addU64 profile config.gasUsed 10 with
          | none => none
          | some gasLimit =>
            let header : Header Address Hash :=
              { parentHash := emptyHash, proposer, stateRoot := emptyHash, txRoot := emptyHash,
                receiptRoot := emptyHash, height := 0, gasLimit, gasUsed := config.gasUsed,
                time := castI64 timestamp, votes := none,
                extra := some config.extra.toUTF8.data.toList }
            let block : Block Address Hash Tx := { header, transactions := [] }
            match ledger.addGenesisBlock hash block with
            | .ok ledger => some (.ok (), ledger)
            | .error _ => some (.ok (), ledger)

/-! ## What each path leaves behind -/

/-- What the block `store_genesis_block` lays says of the config: height
`0` on `EMPTY_HASH`, no transactions, the config's proposer and gas used,
and a gas limit of `gas_used + 10` modulo `2^64`. -/
structure GenesisBlockOf (config : GenesisConfig) (b : Block Address Hash Tx) : Prop where
  height : b.header.height = 0
  parentHash : b.header.parentHash = emptyHash
  transactions : b.transactions = []
  proposer : stringToAddress config.proposer = .ok b.header.proposer
  gasUsed : b.header.gasUsed = config.gasUsed
  gasLimit : b.header.gasLimit.toNat = (config.gasUsed.toNat + 10) % UInt64.size

variable (profile : Profile) (config : GenesisConfig) (ledger : Ledger Address Hash Tx)

theorem storeGenesisBlock_of_genesis {g : Block Address Hash Tx}
    (h : ledger.getGenesisBlock = some g) :
    storeGenesisBlock stringToAddress parseTimestamp emptyHash hash profile config ledger =
      some (.ok (), ledger.reloadMeta hash) := by
  simp [storeGenesisBlock, h]

/-- Every outcome on a ledger with no genesis block, for validators that
parse: each comes after the config's validators have been written. -/
theorem storeGenesisBlock_cases (hnone : ledger.getGenesisBlock = none)
    {validators : List Address} (hv : config.validator.mapM stringToAddress = .ok validators) :
    (∃ err, storeGenesisBlock stringToAddress parseTimestamp emptyHash hash profile config ledger =
      some (.error err, ledger.addValidators validators)) ∨
    (storeGenesisBlock stringToAddress parseTimestamp emptyHash hash profile config ledger = none ∧
      profile = .debug ∧ UInt64.size ≤ config.gasUsed.toNat + 10) ∨
    ∃ b, GenesisBlockOf stringToAddress emptyHash config b ∧
      storeGenesisBlock stringToAddress parseTimestamp emptyHash hash profile config ledger =
        some (.ok (), { ledger.addValidators validators with blocks := [b], lastMeta := ⟨0, hash b⟩ }) := by
  obtain ⟨lastMeta, blocks, oldValidators⟩ := ledger
  obtain rfl : blocks = [] := by simpa [Ledger.getGenesisBlock] using hnone
  unfold storeGenesisBlock
  rw [hnone, hv]
  rcases hp : stringToAddress config.proposer with err | proposer
  · exact .inl ⟨err, rfl⟩
  rcases ht : parseTimestamp config.epochTime with err | timestamp
  · exact .inl ⟨err, rfl⟩
  rcases hg : addU64 profile config.gasUsed 10 with _ | gasLimit
  · exact .inr (.inl ⟨rfl, addU64_eq_none_iff.1 hg⟩)
  · refine .inr (.inr ⟨_, ?_, rfl⟩)
    exact ⟨rfl, rfl, rfl, hp, rfl, toNat_of_addU64 hg⟩

/-- **What `store_genesis_block` does**, for a config whose validators
parse. With a genesis block it returns `Ok` and keeps the blocks and the
validators. Without one, it panics only in a debug build whose
`gas_used + 10` overflows; an `Err` leaves the config's validators and the
old blocks; an `Ok` leaves the config's validators and one genesis block. -/
theorem storeGenesisBlock_spec (validators : List Address)
    (hv : config.validator.mapM stringToAddress = .ok validators) :
    (ledger.getGenesisBlock ≠ none → ∃ l,
      storeGenesisBlock stringToAddress parseTimestamp emptyHash hash profile config ledger =
        some (.ok (), l) ∧ l.blocks = ledger.blocks ∧ l.validators = ledger.validators) ∧
    (ledger.getGenesisBlock = none →
      (storeGenesisBlock stringToAddress parseTimestamp emptyHash hash profile config ledger = none →
        profile = .debug ∧ UInt64.size ≤ config.gasUsed.toNat + 10) ∧
      (∀ err l, storeGenesisBlock stringToAddress parseTimestamp emptyHash hash profile config
          ledger = some (.error err, l) → l.validators = validators ∧ l.blocks = ledger.blocks) ∧
      (∀ l, storeGenesisBlock stringToAddress parseTimestamp emptyHash hash profile config ledger =
          some (.ok (), l) → l.validators = validators ∧
            ∃ b, l.blocks = [b] ∧ GenesisBlockOf stringToAddress emptyHash config b)) := by
  refine ⟨fun h => ?_, fun hnone => ?_⟩
  · obtain ⟨g, hg⟩ := Option.ne_none_iff_exists'.1 h
    exact ⟨_, storeGenesisBlock_of_genesis stringToAddress parseTimestamp emptyHash hash profile
      config ledger hg, Ledger.reloadMeta_blocks hash ledger, Ledger.reloadMeta_validators hash ledger⟩
  rcases storeGenesisBlock_cases stringToAddress parseTimestamp emptyHash hash profile config ledger
    hnone hv with ⟨err, he⟩ | ⟨hn, rfl, hgas⟩ | ⟨b, hb, hok⟩
  · simp [he]
  · exact ⟨fun _ => ⟨rfl, hgas⟩, by simp [hn]⟩
  · simp [hok, hb]

theorem storeGenesisBlock_spec_fresh :
    (["v"].mapM sampleAddress = .ok ["v"]) ∧
    ∃ l, storeGenesisBlock sampleAddress (fun _ => .ok 0) () (fun _ => ()) .release
        ⟨["v"], "p", "0", "", 0⟩ freshLedger = some (.ok (), l) ∧
      l.validators = ["v"] ∧ ∃ b, l.blocks = [b] ∧ GenesisBlockOf sampleAddress () ⟨["v"], "p", "0", "", 0⟩ b :=
  ⟨rfl, _, rfl, ((storeGenesisBlock_spec sampleAddress (fun _ => .ok 0) () (fun _ => ()) .release
    ⟨["v"], "p", "0", "", 0⟩ freshLedger ["v"] rfl).2 rfl).2.2 _ rfl⟩

/-- **`store_genesis_block` is not all-or-nothing.** Take a ledger with no
genesis block and a config whose validators parse. A proposer that does not
parse returns `Err` from a ledger whose validators the config's have
already replaced. A `gas_used` within `10` of `u64::MAX` panics in a debug
build, after the same write; in a release build it stores a genesis block
whose gas limit has wrapped below its gas used. -/
theorem storeGenesisBlock_not_atomic (hnone : ledger.getGenesisBlock = none)
    (validators : List Address) (hv : config.validator.mapM stringToAddress = .ok validators) :
    (∀ err, stringToAddress config.proposer = .error err →
      storeGenesisBlock stringToAddress parseTimestamp emptyHash hash profile config ledger =
        some (.error err, ledger.addValidators validators)) ∧
    (∀ proposer timestamp, stringToAddress config.proposer = .ok proposer →
      parseTimestamp config.epochTime = .ok timestamp → UInt64.size ≤ config.gasUsed.toNat + 10 →
      storeGenesisBlock stringToAddress parseTimestamp emptyHash hash .debug config ledger = none ∧
      ∃ l b, storeGenesisBlock stringToAddress parseTimestamp emptyHash hash .release config ledger =
        some (.ok (), l) ∧ l.blocks = [b] ∧ b.header.gasLimit < b.header.gasUsed) := by
  have hblocks : ledger.blocks = [] := by simpa [Ledger.getGenesisBlock] using hnone
  unfold storeGenesisBlock
  rw [hnone, hv]
  refine ⟨fun err hp => by simp [hp], fun proposer timestamp hp ht hgas => ⟨?_, ?_⟩⟩
  · have hpanic : addU64 .debug config.gasUsed 10 = none := addU64_eq_none_iff.2 ⟨rfl, hgas⟩
    simp [hp, ht, hpanic]
  · have hlt := config.gasUsed.toNat_lt_size
    simp [hp, ht, addU64, Ledger.addGenesisBlock, hblocks]
    rw [uint64_lt_iff, uint64_toNat_add, show (10 : UInt64).toNat = 10 from rfl]
    simp only [UInt64.size] at hlt hgas ⊢
    omega

theorem storeGenesisBlock_not_atomic_fresh :
    freshLedger.getGenesisBlock = none ∧
    (storeGenesisBlock sampleAddress (fun _ => .ok 0) () (fun _ => ()) .release
        ⟨["v"], "", "0", "", 0⟩ freshLedger =
      some (.error "invalid address", { freshLedger with validators := ["v"] })) ∧
    storeGenesisBlock sampleAddress (fun _ => .ok 0) () (fun _ => ()) .debug
        ⟨["v"], "p", "0", "", 18446744073709551615⟩ freshLedger = none ∧
    ∃ l b, storeGenesisBlock sampleAddress (fun _ => .ok 0) () (fun _ => ()) .release
        ⟨["v"], "p", "0", "", 18446744073709551615⟩ freshLedger = some (.ok (), l) ∧
      l.blocks = [b] ∧ b.header.gasLimit < b.header.gasUsed :=
  ⟨rfl, (storeGenesisBlock_not_atomic sampleAddress (fun _ => .ok 0) () (fun _ => ()) .release
      ⟨["v"], "", "0", "", 0⟩ freshLedger rfl ["v"] rfl).1 _ rfl,
    (storeGenesisBlock_not_atomic sampleAddress (fun _ => .ok 0) () (fun _ => ()) .release
      ⟨["v"], "p", "0", "", 18446744073709551615⟩ freshLedger rfl ["v"] rfl).2 "p" 0 rfl rfl
      (by decide)⟩

/-! ## The boot sequence

`cmd::start_node` runs `init_store`, which refuses a config with a
validator that does not parse and builds the ledger with the config's
validators, and then `init_genesis`. That calls `Chain::store_genesis_block`,
which is not in the repository and is taken to call `store_genesis_block`
on the config's genesis section and the ledger `init_store` built. A node
restarted on the same store runs it again, on what the first run left. -/

/-- `cmd::init_store` once the database has opened on a store holding
`blocks`: a ledger with `LastMeta::new_zero()` (height `0`, hash
`zeroHash`) and the config's validators, each of which must parse. -/
def initStore (config : GenesisConfig) (zeroHash : Hash) (blocks : List (Block Address Hash Tx)) :
    Except String (Ledger Address Hash Tx) := do
  let validators ← config.validator.mapM stringToAddress
  pure { lastMeta := ⟨0, zeroHash⟩, blocks, validators }

theorem initStore_eq_ok {zeroHash : Hash} {blocks : List (Block Address Hash Tx)}
    (h : initStore stringToAddress config zeroHash blocks = .ok ledger) :
    config.validator.mapM stringToAddress = .ok ledger.validators ∧
      ledger = ⟨⟨0, zeroHash⟩, blocks, ledger.validators⟩ := by
  unfold initStore at h
  rcases hv : config.validator.mapM stringToAddress with err | validators <;>
    rw [hv] at h <;> cases h
  exact ⟨rfl, rfl⟩

/-- **At boot, `store_genesis_block` writes nothing it then leaves
half-done.** On the ledger `init_store` builds, it never panics on a
validator, and an `Err` leaves that ledger exactly as it was: the
validators it writes first are the ones `init_store` set. It panics only on
an empty store, in a debug build whose `gas_used + 10` overflows. An `Ok`
keeps the validators, and lays one genesis block on an empty store or keeps
the stored blocks. -/
theorem initStore_storeGenesisBlock (zeroHash : Hash) (blocks : List (Block Address Hash Tx))
    (h : initStore stringToAddress config zeroHash blocks = .ok ledger) :
    (storeGenesisBlock stringToAddress parseTimestamp emptyHash hash profile config ledger = none →
      blocks = [] ∧ profile = .debug ∧ UInt64.size ≤ config.gasUsed.toNat + 10) ∧
    (∀ err l, storeGenesisBlock stringToAddress parseTimestamp emptyHash hash profile config
        ledger = some (.error err, l) → l = ledger) ∧
    (∀ l, storeGenesisBlock stringToAddress parseTimestamp emptyHash hash profile config ledger =
        some (.ok (), l) → l.validators = ledger.validators ∧
          (blocks = [] → ∃ b, l.blocks = [b] ∧ GenesisBlockOf stringToAddress emptyHash config b) ∧
          (blocks ≠ [] → l.blocks = blocks)) := by
  obtain ⟨hv, hl⟩ := initStore_eq_ok stringToAddress config ledger h
  rcases blocks with _ | ⟨g, gs⟩
  · have hnone : ledger.getGenesisBlock = none := by rw [hl]; rfl
    rcases storeGenesisBlock_cases stringToAddress parseTimestamp emptyHash hash profile config ledger
      hnone hv with ⟨err, he⟩ | ⟨hn, rfl, hgas⟩ | ⟨b, hb, hok⟩
    · simp [he]
    · exact ⟨fun _ => ⟨rfl, rfl, hgas⟩, by simp [hn]⟩
    · simp [hok, hb]
  · have hg : ledger.getGenesisBlock = some g := by rw [hl]; rfl
    have hblocks : ledger.blocks = g :: gs := by rw [hl]
    simp [storeGenesisBlock_of_genesis stringToAddress parseTimestamp emptyHash hash profile config
      ledger hg, hblocks]

theorem initStore_storeGenesisBlock_fresh :
    initStore sampleAddress ⟨["v"], "", "0", "", 0⟩ () [] = .ok { freshLedger with validators := ["v"] } ∧
    ∀ err l, storeGenesisBlock sampleAddress (fun _ => .ok 0) () (fun _ => ()) .release
      ⟨["v"], "", "0", "", 0⟩ { freshLedger with validators := ["v"] } = some (.error err, l) →
      l = { freshLedger with validators := ["v"] } :=
  ⟨rfl, (initStore_storeGenesisBlock sampleAddress (fun _ => .ok 0) () (fun _ => ()) .release
    ⟨["v"], "", "0", "", 0⟩ { freshLedger with validators := ["v"] } () [] rfl).2.1⟩

/-- **A second `store_genesis_block` changes nothing.** Once it has
returned `Ok`, calling it again on the ledger it left returns `Ok` and
leaves that ledger exactly as it is: a node that boots twice on one store
lays no second genesis block and moves no metadata. -/
theorem storeGenesisBlock_idempotent {l : Ledger Address Hash Tx}
    (h : storeGenesisBlock stringToAddress parseTimestamp emptyHash hash profile config ledger =
      some (.ok (), l)) :
    storeGenesisBlock stringToAddress parseTimestamp emptyHash hash profile config l =
      some (.ok (), l) := by
  rcases hg : ledger.getGenesisBlock with _ | g
  · rcases hv : config.validator.mapM stringToAddress with err | validators
    · rw [storeGenesisBlock, hg, hv] at h
      cases h
    rcases storeGenesisBlock_cases stringToAddress parseTimestamp emptyHash hash profile config ledger
      hg hv with ⟨err, he⟩ | ⟨hn, -⟩ | ⟨b, -, hok⟩
    · cases he.symm.trans h
    · cases hn.symm.trans h
    · obtain ⟨-, rfl⟩ := Prod.mk.inj (Option.some.inj (hok.symm.trans h))
      exact storeGenesisBlock_of_genesis (g := b) stringToAddress parseTimestamp emptyHash hash
        profile config _ rfl
  · rw [storeGenesisBlock_of_genesis stringToAddress parseTimestamp emptyHash hash profile config
      ledger hg] at h
    obtain ⟨-, rfl⟩ := Prod.mk.inj (Option.some.inj h)
    rw [storeGenesisBlock_of_genesis stringToAddress parseTimestamp emptyHash hash profile config
      (ledger.reloadMeta hash) ((Ledger.getGenesisBlock_reloadMeta hash ledger).trans hg),
      Ledger.reloadMeta_reloadMeta]

theorem storeGenesisBlock_idempotent_fresh :
    ∃ l, storeGenesisBlock sampleAddress (fun _ => .ok 0) () (fun _ => ()) .release
        ⟨["v"], "p", "0", "", 0⟩ freshLedger = some (.ok (), l) ∧
      storeGenesisBlock sampleAddress (fun _ => .ok 0) () (fun _ => ()) .release
        ⟨["v"], "p", "0", "", 0⟩ l = some (.ok (), l) :=
  ⟨_, rfl, storeGenesisBlock_idempotent sampleAddress (fun _ => .ok 0) () (fun _ => ()) .release
    ⟨["v"], "p", "0", "", 0⟩ freshLedger rfl⟩

end StoreGenesisBlock

end ConsensusRs
