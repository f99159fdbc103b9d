import ConsensusRs.Store.Bytes
/-!
# Blocks and the ledger

`types/block.rs` and `core/ledger.rs` are not in the repository; what
`core/genesis.rs` needs of them is modelled here from the spec (§3, §4.3).
Addresses, hashes and transactions are left abstract, and the block hash
is a parameter of the operations that record it.

The chain is a list whose entry `h` is the block at height `h`, so the
spec's first invariant (heights from genesis, no gaps) holds of every
ledger by construction. One validator set serves the whole chain (§4.3).
The two LRU caches are left out: the spec's sixth invariant makes them
agree with the store, so no read can tell them apart from it.
-/

namespace ConsensusRs

/-- Modelled from the spec: a block header (§3). `Header::new` also takes two
numeric arguments before `height` that the spec does not name; genesis
passes `0` for both and nothing reads them, so they are left out. -/
structure Header (Address Hash : Type) where
  parentHash : Hash
  proposer : Address
  stateRoot : Hash
  txRoot : Hash
  receiptRoot : Hash
  height : UInt64
  gasLimit : UInt64
  gasUsed : UInt64
  time : UInt64
  votes : Option (List Bytes)
  extra : Option Bytes

/-- Modelled from the spec: a header and its transactions (§3). -/
structure Block (Address Hash Tx : Type) where
  header : Header Address Hash
  transactions : List Tx

/-- Modelled from the spec: `LastMeta`, the persisted tip (§3). -/
structure LastMeta (Hash : Type) where
  height : Nat
  hash : Hash

/-- Modelled from the spec: the ledger's refusal to lay a second genesis
(§4.3). -/
inductive LedgerError where
  | alreadyInitialized

/-- Modelled from the spec: `core::ledger::Ledger` (§4.3). -/
structure Ledger (Address Hash Tx : Type) where
  lastMeta : LastMeta Hash
  blocks : List (Block Address Hash Tx)
  validators : List Address

namespace Ledger

variable {Address Hash Tx : Type} (hash : Block Address Hash Tx → Hash)

/-- Modelled from the spec: `Ledger::get_genesis_block`, the block at
height `0`. -/
def getGenesisBlock (ledger : Ledger Address Hash Tx) : Option (Block Address Hash Tx) :=
  ledger.blocks.head?

/-- Modelled from the spec: `Ledger::reload_meta` sets `LastMeta` to the
highest block of the contiguous chain. -/
def reloadMeta (ledger : Ledger Address Hash Tx) : Ledger Address Hash Tx :=
  match ledger.blocks.getLast? with
  | some tip => { ledger with lastMeta := ⟨ledger.blocks.length - 1, hash tip⟩ }
  | none => ledger

/-- Modelled from the spec: `Ledger::add_validators`, the chain's one
validator set. -/
def addValidators (ledger : Ledger Address Hash Tx) (validators : List Address) :
    Ledger Address Hash Tx :=
  { ledger with validators }

/-- Modelled from the spec: `Ledger::add_genesis_block` fails with
`AlreadyInitialized` if any block exists, and otherwise stores the block at
height `0` and sets `LastMeta`. -/
def addGenesisBlock (ledger : Ledger Address Hash Tx) (block : Block Address Hash Tx) :
    Except LedgerError (Ledger Address Hash Tx) :=
  match ledger.blocks with
  | [] => .ok { ledger with blocks := [block], lastMeta := ⟨0, hash block⟩ }
  | _ :: _ => .error .alreadyInitialized

@[simp] theorem addValidators_blocks (ledger : Ledger Address Hash Tx) (validators : List Address) :
    (ledger.addValidators validators).blocks = ledger.blocks := rfl

@[simp] theorem addValidators_validators (ledger : Ledger Address Hash Tx)
    (validators : List Address) : (ledger.addValidators validators).validators = validators := rfl

@[simp] theorem addValidators_self (ledger : Ledger Address Hash Tx) :
    ledger.addValidators ledger.validators = ledger := rfl

@[simp] theorem reloadMeta_blocks (ledger : Ledger Address Hash Tx) :
    (ledger.reloadMeta hash).blocks = ledger.blocks := by
  unfold reloadMeta; split <;> rfl

@[simp] theorem reloadMeta_validators (ledger : Ledger Address Hash Tx) :
    (ledger.reloadMeta hash).validators = ledger.validators := by
  unfold reloadMeta; split <;> rfl

@[simp] theorem getGenesisBlock_reloadMeta (ledger : Ledger Address Hash Tx) :
    (ledger.reloadMeta hash).getGenesisBlock = ledger.getGenesisBlock := by
  simp [getGenesisBlock]

/-- `reload_meta` reads only the blocks, which it keeps. -/
@[simp] theorem reloadMeta_reloadMeta (ledger : Ledger Address Hash Tx) :
    (ledger.reloadMeta hash).reloadMeta hash = ledger.reloadMeta hash := by
  rcases h : ledger.blocks.getLast? with _ | tip <;> simp [reloadMeta, h]

end Ledger

end ConsensusRs
