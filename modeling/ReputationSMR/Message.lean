import ReputationSMR.Wire
import ReputationSMR.FiniteMap

/-! The protocol-buffer messages of `proto/` with the byte strings that are signed
and hashed, and what the program takes from outside the repository: the hash and
signature functions of `libchatter/crypto` and `math.Tanh`. A message pointer that
decoding may leave `nil` is an `Option`; `uint64` fields are natural numbers. -/
namespace ReputationSMR

open Wire

/-- `crypto.Hash`, an array of 32 bytes. -/
structure Hash where
  bytes : Bytes
  size : bytes.length = 32
  deriving DecidableEq

/-- `chain.EmptyHash`, which is also `chain.GenesisHash`. -/
def emptyHash : Hash := ⟨List.replicate 32 0,by simp⟩

/-! ## chain/block.proto -/

structure ProtoHeader where
  parentHash : Bytes
  txHash : Bytes
  height : Nat
  extra : Bytes
  deriving DecidableEq

structure ProtoBody where
  txs : List Bytes
  responses : List Bytes
  deriving DecidableEq

structure ProtoBlock where
  header : Option ProtoHeader
  body : Option ProtoBody
  blockHash : Bytes
  deriving DecidableEq

def ProtoHeader.marshal (h : ProtoHeader) : Bytes :=
  encode (bytesField 1 h.parentHash ++ bytesField 2 h.txHash ++ uintField 3 h.height ++
    bytesField 4 h.extra)

/-- A `nil` header marshals to no bytes. -/
def marshalHeader (h : Option ProtoHeader) : Bytes := (h.map ProtoHeader.marshal).getD []

/-! ## msg/vote.proto, msg/cert.proto -/

structure ProtoVoteData where
  blockHash : Bytes
  view : Nat
  owner : Nat
  deriving DecidableEq

structure ProtoVoteBody where
  voter : Nat
  signature : Bytes
  deriving DecidableEq

structure ProtoVote where
  data : Option ProtoVoteData
  body : Option ProtoVoteBody
  deriving DecidableEq

def ProtoVoteData.fields (d : ProtoVoteData) : List Field :=
  bytesField 1 d.blockHash ++ uintField 2 d.view ++ uintField 3 d.owner

def ProtoVoteData.marshal (d : ProtoVoteData) : Bytes := encode d.fields

/-- Decoding that ignores the error keeps what was read before it. -/
def ProtoVoteData.unmarshal (b : Bytes) : ProtoVoteData :=
  ⟨lastBytes 1 (parse b).1,lastUint 2 (parse b).1,lastUint 3 (parse b).1⟩

def marshalVoteData (d : Option ProtoVoteData) : Bytes := (d.map ProtoVoteData.marshal).getD []

def ProtoVote.getVoter (v : ProtoVote) : Nat := (v.body.map ProtoVoteBody.voter).getD 0

def ProtoVote.getSignature (v : ProtoVote) : Bytes := (v.body.map ProtoVoteBody.signature).getD []

structure Certificate where
  data : Bytes
  signatures : List Bytes
  ids : List Nat
  deriving DecidableEq

def Certificate.fields (c : Certificate) : List Field :=
  bytesField 1 c.data ++ repeatedBytes 2 c.signatures ++ packedField 3 c.ids

def Certificate.marshal (c : Certificate) : Bytes := encode c.fields

def Certificate.unmarshal (b : Bytes) : Certificate :=
  ⟨lastBytes 1 (parse b).1,collectBytes 2 (parse b).1,collectUints 3 (parse b).1⟩

/-! ## msg/proposal.proto, msg/evidence.proto, msg/generic.proto -/

structure Proposal where
  block : Option ProtoBlock
  forwardSender : Nat
  forwardSig : Bytes
  miner : Nat
  miningProof : Bytes
  view : Nat
  proposeEvidence : Bytes
  deriving DecidableEq

def Proposal.getHeader (p : Proposal) : Option ProtoHeader := p.block.bind ProtoBlock.header

def Proposal.getTxs (prop : Proposal) : List Bytes := ((prop.block.bind ProtoBlock.body).map ProtoBody.txs).getD []

structure EvidenceData where
  misbehaviourTarget : Nat
  view : Nat
  deriving DecidableEq

def EvidenceData.marshal (d : EvidenceData) : Bytes :=
  encode (uintField 1 d.misbehaviourTarget ++ uintField 2 d.view)

structure Evidence where
  evidenceData : Option EvidenceData
  evOrigin : Nat
  orSignature : Bytes
  deriving DecidableEq

structure EquivocationEvidence where
  evidence : Option Evidence
  e1 : Option Proposal
  e2 : Option Proposal
  deriving DecidableEq

structure MalicousProposalEvidence where
  evidence : Option Evidence
  e : Option Proposal
  deriving DecidableEq

structure MalicousVoteEvidence where
  evidence : Option Evidence
  e : Option ProtoVote
  deriving DecidableEq

inductive SyncHSMsg where
  | prop (p : Proposal)
  | eqevidence (e : EquivocationEvidence)
  | mpevidence (e : MalicousProposalEvidence)
  | mvevidence (e : MalicousVoteEvidence)
  | ack (block : Option ProtoBlock)
  | tx (cmd : Bytes)
  | vote (v : ProtoVote)
  | unset
  deriving DecidableEq

/-! ## Round trips -/

theorem bytesField_wellFormed (number : Nat) (b : Bytes) (positive : number ≠ 0) :
    ∀ f ∈ bytesField number b, f.WellFormed := by
  intro f member
  unfold bytesField at member
  split at member
  · simp at member
  · obtain rfl := List.mem_singleton.mp member
    exact ⟨positive,trivial⟩

theorem uintField_wellFormed (number n : Nat) (positive : number ≠ 0) :
    ∀ f ∈ uintField number n, f.WellFormed := by
  intro f member
  unfold uintField at member
  split at member
  · simp at member
  · obtain rfl := List.mem_singleton.mp member
    exact ⟨positive,trivial⟩

theorem repeatedBytes_wellFormed (number : Nat) (bs : List Bytes) (positive : number ≠ 0) :
    ∀ f ∈ repeatedBytes number bs, f.WellFormed := by
  intro f member
  obtain ⟨b,_,rfl⟩ := List.mem_map.mp member
  exact ⟨positive,trivial⟩

theorem ProtoVoteData.parse_marshal (d : ProtoVoteData) : parse d.marshal = (d.fields,true) := by
  apply parse_encode
  intro f member
  rcases List.mem_append.mp member with left | owner
  · rcases List.mem_append.mp left with hash | view
    · exact bytesField_wellFormed 1 _ (by decide) f hash
    · exact uintField_wellFormed 2 _ (by decide) f view
  · exact uintField_wellFormed 3 _ (by decide) f owner

theorem ProtoHeader.parse_marshal (h : ProtoHeader) : parse h.marshal = (bytesField 1 h.parentHash ++
    bytesField 2 h.txHash ++ uintField 3 h.height ++ bytesField 4 h.extra,true) := by
  apply parse_encode
  intro f member
  simp only [List.mem_append] at member
  rcases member with ((parent | tx) | number) | rest
  · exact bytesField_wellFormed 1 _ (by decide) f parent
  · exact bytesField_wellFormed 2 _ (by decide) f tx
  · exact uintField_wellFormed 3 _ (by decide) f number
  · exact bytesField_wellFormed 4 _ (by decide) f rest

theorem EvidenceData.parse_marshal (d : EvidenceData) :
    parse d.marshal = (uintField 1 d.misbehaviourTarget ++ uintField 2 d.view,true) := by
  apply parse_encode
  intro f member
  rcases List.mem_append.mp member with target | view
  · exact uintField_wellFormed 1 _ (by decide) f target
  · exact uintField_wellFormed 2 _ (by decide) f view

theorem ProtoHeader.unmarshal_marshal (h : ProtoHeader) :
    ProtoVoteData.unmarshal h.marshal = ⟨h.parentHash,0,h.height⟩ := by
  obtain ⟨parentHash,txHash,height,extra⟩ := h
  unfold ProtoVoteData.unmarshal
  rw [parse_marshal]
  by_cases a : parentHash = [] <;> by_cases b : txHash = [] <;> by_cases c : height = 0 <;>
    by_cases d : extra = [] <;> simp [bytesField,uintField,lastBytes,lastUint,a,b,c,d]

theorem ProtoHeader.parentHash_marshal (h : ProtoHeader) : lastBytes 1 (parse h.marshal).1 = h.parentHash :=
  congrArg ProtoVoteData.blockHash h.unmarshal_marshal

theorem EvidenceData.unmarshal_marshal (d : EvidenceData) : ProtoVoteData.unmarshal d.marshal = ⟨[],d.view,0⟩ := by
  obtain ⟨target,view⟩ := d
  unfold ProtoVoteData.unmarshal
  rw [parse_marshal]
  by_cases t : target = 0 <;> by_cases v : view = 0 <;> simp [uintField,lastBytes,lastUint,t,v]

theorem ProtoVoteData.unmarshal_marshal (d : ProtoVoteData) : unmarshal d.marshal = d := by
  obtain ⟨blockHash,view,owner⟩ := d
  unfold unmarshal
  rw [parse_marshal]
  by_cases h : blockHash = [] <;> by_cases v : view = 0 <;> by_cases o : owner = 0 <;>
    simp [fields,bytesField,uintField,lastBytes,lastUint,h,v,o]

theorem Certificate.parse_marshal (c : Certificate) : parse c.marshal = (c.fields,true) := by
  apply parse_encode
  intro f member
  rcases List.mem_append.mp member with left | ids
  · rcases List.mem_append.mp left with data | sigs
    · exact bytesField_wellFormed 1 _ (by decide) f data
    · exact repeatedBytes_wellFormed 2 _ (by decide) f sigs
  · exact bytesField_wellFormed 3 _ (by decide) f ids

theorem lastBytes_append (number : Nat) (left right : List Field)
    (absent : ∀ f ∈ right, f.number ≠ number) :
    lastBytes number (left ++ right) = lastBytes number left := by
  unfold lastBytes
  rw [List.foldl_append]
  induction right generalizing left with
  | nil => rfl
  | cons f rest ih =>
    have other := absent f List.mem_cons_self
    have tail := ih left (fun g member => absent g (List.mem_cons_of_mem f member))
    rw [List.foldl_cons]
    cases shape : f.value <;> simp_all

theorem collectBytes_absent (number : Nat) (fields : List Field)
    (absent : ∀ f ∈ fields, f.number ≠ number) : collectBytes number fields = [] := by
  apply List.filterMap_eq_nil_iff.mpr
  intro f member
  have other := absent f member
  cases shape : f.value <;> simp [other]

theorem collectUints_absent (number : Nat) (fields : List Field)
    (absent : ∀ f ∈ fields, f.number ≠ number) : collectUints number fields = [] := by
  apply List.flatMap_eq_nil_iff.mpr
  intro f member
  simp [absent f member]

theorem bytesField_number (number : Nat) (b : Bytes) (f : Field)
    (member : f ∈ bytesField number b) : f.number = number := by
  unfold bytesField at member
  split at member
  · simp at member
  · obtain rfl := List.mem_singleton.mp member; rfl

theorem repeatedBytes_number (number : Nat) (bs : List Bytes) (f : Field)
    (member : f ∈ repeatedBytes number bs) : f.number = number := by
  obtain ⟨b,_,rfl⟩ := List.mem_map.mp member; rfl

theorem collectBytes_repeated (number : Nat) (bs : List Bytes) :
    collectBytes number (repeatedBytes number bs) = bs := by
  simp [collectBytes,repeatedBytes,List.filterMap_map]

theorem collectUints_packed (number : Nat) (ns : List Nat) :
    collectUints number (packedField number ns) = ns := by
  unfold packedField bytesField
  split
  next empty =>
    cases ns with
    | nil => rfl
    | cons n rest => simp [varint_ne_nil] at empty
  next => simp [collectUints,readPacked_flatMap]

theorem Certificate.unmarshal_marshal (c : Certificate) : unmarshal c.marshal = c := by
  obtain ⟨data,signatures,ids⟩ := c
  have numbers : ∀ f ∈ repeatedBytes 2 signatures ++ packedField 3 ids, f.number ≠ 1 := by
    intro f member
    rcases List.mem_append.mp member with sigs | packed
    · rw [repeatedBytes_number 2 _ f sigs]; decide
    · rw [bytesField_number 3 _ f packed]; decide
  have dataPart : lastBytes 1 (bytesField 1 data) = data := by
    by_cases empty : data = [] <;> simp [bytesField,lastBytes,empty]
  unfold unmarshal
  rw [parse_marshal]
  simp only [fields, List.append_assoc]
  rw [lastBytes_append 1 _ _ numbers, dataPart]
  have noneInData : collectBytes 2 (bytesField 1 data) = [] :=
    collectBytes_absent 2 _ fun f member => by rw [bytesField_number 1 _ f member]; decide
  have noneInIds : collectBytes 2 (packedField 3 ids) = [] :=
    collectBytes_absent 2 _ fun f member => by rw [bytesField_number 3 _ f member]; decide
  have noIdsInData : collectUints 3 (bytesField 1 data) = [] :=
    collectUints_absent 3 _ fun f member => by rw [bytesField_number 1 _ f member]; decide
  have noIdsInSigs : collectUints 3 (repeatedBytes 2 signatures) = [] :=
    collectUints_absent 3 _ fun f member => by rw [repeatedBytes_number 2 _ f member]; decide
  have bytesSplit : collectBytes 2 (bytesField 1 data ++ (repeatedBytes 2 signatures ++
      packedField 3 ids)) = signatures := by
    unfold collectBytes at noneInData noneInIds ⊢
    rw [List.filterMap_append, List.filterMap_append, noneInData, noneInIds]
    simpa [collectBytes] using collectBytes_repeated 2 signatures
  have uintsSplit : collectUints 3 (bytesField 1 data ++ (repeatedBytes 2 signatures ++
      packedField 3 ids)) = ids := by
    unfold collectUints at noIdsInData noIdsInSigs ⊢
    rw [List.flatMap_append, List.flatMap_append, noIdsInData, noIdsInSigs]
    simpa [collectUints] using collectUints_packed 3 ids
  rw [bytesSplit, uintsSplit]

/-! ## What the program takes from outside the repository -/

/-- `toHash` copies bytes and does not hash; it slices 32 bytes, and `capacity b` is the
capacity of a decoded field with the bytes `b`, which the runtime may round up. Decoding
is only known on what was encoded. `verify` is `none` when the key library returns an
error, otherwise whether the signature matches. Keys are named by the node that owns
them. Scores are exact, so `tanh` acts on rationals. -/
structure Platform where
  doHash : Bytes → Hash
  toHash : Bytes → Hash
  capacity : Bytes → Nat
  unmarshalVoteData : Bytes → ProtoVoteData
  unmarshalCertificate : Bytes → Certificate
  sign : Nat → Bytes → Bytes
  verify : Nat → Bytes → Bytes → Option Bool
  tanh : ℚ → ℚ
  length_le_capacity : ∀ b, b.length ≤ capacity b
  unmarshalVoteData_marshal : ∀ d : ProtoVoteData, unmarshalVoteData d.marshal = d
  unmarshalCertificate_marshal : ∀ c : Certificate, unmarshalCertificate c.marshal = c

/-- `crypto.ToHash` returns: 32 bytes can be sliced from the field. -/
def Platform.copies (p : Platform) (b : Bytes) : Prop := 32 ≤ p.capacity b

instance (p : Platform) (b : Bytes) : Decidable (p.copies b) := inferInstanceAs (Decidable (_ ≤ _))

theorem Platform.copies_hash (p : Platform) (h : Hash) : p.copies h.bytes :=
  h.size.symm.le.trans (p.length_le_capacity h.bytes)

/-- The first 32 bytes, padded with zeros. -/
def copyHash (b : Bytes) : Hash :=
  ⟨(b ++ List.replicate 32 0).take 32,by simp⟩

theorem copyHash_bytes (h : Hash) : copyHash h.bytes = h := by
  obtain ⟨bytes,size⟩ := h
  simp [copyHash,size]

def checksum (b : Bytes) : UInt8 := b.foldl (fun sum byte => sum * 31 + byte + 1) 7

/-- A platform for concrete runs: a signature is the data behind the name of the signer,
and the first byte of a hash is not that of the first field of the data. -/
def transparent : Platform where
  doHash b := ⟨(if (lastBytes 1 (parse b).1).head? = some 1 then 2 else 1) ::
    List.replicate 31 (checksum b),by simp⟩
  toHash := copyHash
  capacity := List.length
  unmarshalVoteData := ProtoVoteData.unmarshal
  unmarshalCertificate := Certificate.unmarshal
  sign i data := UInt8.ofNat i :: data
  verify i data sig := some (decide (sig = UInt8.ofNat i :: data))
  tanh x := x
  length_le_capacity _ := le_rfl
  unmarshalVoteData_marshal := ProtoVoteData.unmarshal_marshal
  unmarshalCertificate_marshal := Certificate.unmarshal_marshal

end ReputationSMR
