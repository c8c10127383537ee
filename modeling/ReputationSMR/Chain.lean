import ReputationSMR.Message

/-! The `chain` package: blocks with their cached hash, and the chain indexed by
hash and by height. Every block the program keeps was built by `fromProto`. -/
namespace ReputationSMR

open Wire FiniteMap

/-- `hash` and `proto` are the caches; `none` is a cache that was never stored. -/
structure ExtBlock where
  extHeader : Option ProtoHeader
  extBody : Option ProtoBody
  hash : Option Hash
  proto : Option ProtoBlock
  deriving DecidableEq

def ExtBlock.fromProto (p : Platform) (data : ProtoBlock) : ExtBlock :=
  ⟨data.header,data.body,some (p.toHash data.blockHash),some data⟩

/-- The receiver is a copy, so what `GetBlockHash` stores in the cache is lost: the
result depends on the block alone. A cached empty hash stands for no hash, and then
the header bytes are copied, not hashed. -/
def ExtBlock.getBlockHash (p : Platform) (b : ExtBlock) : Hash :=
  match b.hash with
  | none => p.toHash (marshalHeader b.extHeader)
  | some h => if h = emptyHash then p.toHash (marshalHeader b.extHeader) else h

/-- `GetBlockHash` returns: a marshalled header that is copied has 32 bytes. -/
def ExtBlock.Hashes (b : ExtBlock) : Prop :=
  b.hash = none ∨ b.hash = some emptyHash → 32 ≤ (marshalHeader b.extHeader).length

instance (b : ExtBlock) : Decidable b.Hashes := inferInstanceAs (Decidable (_ → _))

def ExtBlock.getHeight (b : ExtBlock) : Nat := (b.extHeader.map ProtoHeader.height).getD 0

def ExtBlock.getExtra (b : ExtBlock) : Bytes := (b.extHeader.map ProtoHeader.extra).getD []

def ExtBlock.getTxs (b : ExtBlock) : List Bytes := (b.extBody.map ProtoBody.txs).getD []

/-- The field that `GetParentHash` copies. -/
def ExtBlock.parentField (b : ExtBlock) : Bytes := (b.extHeader.map ProtoHeader.parentHash).getD []

def ExtBlock.getParentHash (p : Platform) (b : ExtBlock) : Hash := p.toHash b.parentField

@[simp] theorem ExtBlock.fromProto_extHeader (p : Platform) (data : ProtoBlock) :
    (fromProto p data).extHeader = data.header := rfl

@[simp] theorem ExtBlock.fromProto_hash (p : Platform) (data : ProtoBlock) :
    (fromProto p data).hash = some (p.toHash data.blockHash) := rfl

theorem ExtBlock.getBlockHash_cached (p : Platform) (data : ProtoBlock) (h : Hash)
    (cached : p.toHash data.blockHash = h) (nonempty : h ≠ emptyHash) :
    (fromProto p data).getBlockHash p = h := by
  simp [getBlockHash,cached,nonempty]

theorem ProtoHeader.length_marshal (h : ProtoHeader) (whole : 32 ≤ h.parentHash.length) : 32 ≤ h.marshal.length := by
  have nonempty : h.parentHash ≠ [] := List.length_pos_iff.mp (by omega)
  simp only [ProtoHeader.marshal, encode, bytesField, if_neg nonempty, List.flatMap_append, List.length_append,
    List.flatMap_cons, List.flatMap_nil, Field.encode, Value.payload]
  omega

structure BlockChain where
  blocksByHash : Map Hash ExtBlock
  blocksByHeight : Map Nat ExtBlock
  head : Nat

/-- `NewChain` has no genesis block. -/
def BlockChain.newChain : BlockChain := ⟨∅,∅,0⟩

/-- Stores a block in both indexes; the height index is the caller's. -/
def BlockChain.store (p : Platform) (bc : BlockChain) (height : Nat) (b : ExtBlock) : BlockChain :=
  { bc with
    blocksByHeight := bc.blocksByHeight.insert height b
    blocksByHash := bc.blocksByHash.insert (b.getBlockHash p) b }

theorem BlockChain.store_byHeight (p : Platform) (bc : BlockChain) (height h : Nat) (b : ExtBlock) :
    (bc.store p height b).blocksByHeight.lookup h =
      if h = height then some b else bc.blocksByHeight.lookup h :=
  lookup_insert _ _ _ _

theorem BlockChain.store_byHash (p : Platform) (bc : BlockChain) (height : Nat) (h : Hash)
    (b : ExtBlock) : (bc.store p height b).blocksByHash.lookup h =
      if h = b.getBlockHash p then some b else bc.blocksByHash.lookup h :=
  lookup_insert _ _ _ _

end ReputationSMR
