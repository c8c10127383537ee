import ReputationSMR.BlockAgreement

/-! What the block hash of an accepted proposal says about its header. The checks compare the
hash with a cache that `FromProto` filled from the same field, so an accepted proposal has
whatever hash its sender wrote into it. -/
namespace ReputationSMR

open Wire FiniteMap

/-! ## The block hash -/

/-- The proposal passes the checks of `forward` or those of `forwardProposalHandler`. -/
structure PassesChecks (p : Platform) (cfg : NodeConfig) (n : SyncHS) (prop : Proposal) (ep : ExtProposal) : Prop where
  decoded : ExtProposal.fromProto p prop = some ep
  checked : checkProposal p cfg n ep = some true ∨ checkForward p cfg n ep = some true

def Proposal.hashField (prop : Proposal) : Bytes := (prop.block.map ProtoBlock.blockHash).getD []

/-- The header; an absent one reads like one without contents. -/
def Proposal.header (prop : Proposal) : ProtoHeader := prop.getHeader.getD ⟨[],[],0,[]⟩

/-- The sender filled in the hash of the header. -/
def Proposal.FieldIsHash (p : Platform) (prop : Proposal) : Prop :=
  p.toHash prop.hashField = p.doHash (marshalHeader prop.getHeader)

/-- The bytes are no collision. -/
def Platform.Apart (p : Platform) (a b : Bytes) : Prop := p.doHash a = p.doHash b → a = b

section Binding

variable {p : Platform} {cfg cfg' : NodeConfig} {n n' : SyncHS} {prop prop' : Proposal} {ep ep' : ExtProposal}

/-- The check of the block hash makes it what the field says, computed or not. -/
theorem PassesChecks.getBlockHash (passes : PassesChecks p cfg n prop ep) :
    ep.extBlock.getBlockHash p = p.toHash prop.hashField := by
  have checked : checkProposal p cfg n ep = some true :=
    passes.checked.elim id fun forwarded => (checkForward_signed passes.decoded forwarded).1
  have same := (checkProposal_eq_true.mp checked).2.1
  rw [ExtProposal.fromProto_proposal passes.decoded] at same
  exact same.symm

theorem ProtoHeader.marshal_injective : Function.Injective ProtoHeader.marshal := by
  have fields (h : ProtoHeader) : lastBytes 1 (parse h.marshal).1 = h.parentHash ∧
      lastBytes 2 (parse h.marshal).1 = h.txHash ∧ lastUint 3 (parse h.marshal).1 = h.height ∧
      lastBytes 4 (parse h.marshal).1 = h.extra := by
    obtain ⟨parentHash,txHash,height,extra⟩ := h
    rw [parse_marshal]
    by_cases a : parentHash = [] <;> by_cases b : txHash = [] <;> by_cases c : height = 0 <;>
      by_cases d : extra = [] <;> simp [bytesField,uintField,lastBytes,lastUint,a,b,c,d]
  intro h h' same
  obtain ⟨parent,tx,height,extra⟩ := fields h
  obtain ⟨parent',tx',height',extra'⟩ := fields h'
  rw [same] at parent tx height extra
  obtain ⟨_,_,_,_⟩ := h
  obtain ⟨_,_,_,_⟩ := h'
  simp_all

theorem Proposal.header_marshal (prop : Proposal) : prop.header.marshal = marshalHeader prop.getHeader := by
  rw [header, marshalHeader]
  cases prop.getHeader <;> rfl

variable (p prop ep prop' ep') in
/-- The block hashes of two proposals bind their headers: each is the hash of its own, one hash
is for one header, and a forward with another header does not pass as the block of the first
proposal, but is taken for the equivocation that it is. -/
structure BindsHeaders : Prop where
  hash : ep.extBlock.getBlockHash p = p.doHash (marshalHeader prop.getHeader)
  hash' : ep'.extBlock.getBlockHash p = p.doHash (marshalHeader prop'.getHeader)
  bound : ep.extBlock.getBlockHash p = ep'.extBlock.getBlockHash p → prop.header = prop'.header
  detected : ∀ cfg m, Accepted p cfg m prop ep → m.proposalByviewMap.lookup m.view = some prop' →
    prop.header ≠ prop'.header → ∃ m' effect, forwardProposalHandler p cfg m prop = some (m',effect) ∧
      m'.equivocatingProposalInject = true ∧ row m'.fpropMap m.view = row m.fpropMap m.view

/-- The block hashes of two proposals that pass the checks bind their headers exactly when the
senders filled in the hashes of the headers. -/
theorem block_hash_binds_header_iff (passes : PassesChecks p cfg n prop ep)
    (passes' : PassesChecks p cfg' n' prop' ep')
    (apart : p.Apart (marshalHeader prop.getHeader) (marshalHeader prop'.getHeader)) :
    BindsHeaders p prop prop' ep ep' ↔ prop.FieldIsHash p ∧ prop'.FieldIsHash p := by
  constructor
  · intro binds
    exact ⟨passes.getBlockHash.symm.trans binds.hash,passes'.getBlockHash.symm.trans binds.hash'⟩
  · rintro ⟨computed,computed'⟩
    have hash : ep.extBlock.getBlockHash p = p.doHash (marshalHeader prop.getHeader) :=
      passes.getBlockHash.trans computed
    have hash' : ep'.extBlock.getBlockHash p = p.doHash (marshalHeader prop'.getHeader) :=
      passes'.getBlockHash.trans computed'
    have bound (same : ep.extBlock.getBlockHash p = ep'.extBlock.getBlockHash p) : prop.header = prop'.header := by
      rw [hash, hash'] at same
      apply ProtoHeader.marshal_injective
      rw [prop.header_marshal, prop'.header_marshal]
      exact apart same
    refine ⟨hash,hash',bound,fun cfg m accepted first other => ?_⟩
    have reference : m.reference prop = prop' := by rw [SyncHS.reference, first, Option.getD_some]
    have conflicts := forwardProposalHandler_conflicts accepted (reference ▸ passes'.decoded) fun same =>
      other (bound same.symm)
    exact ⟨_,_,conflicts,rfl,rfl⟩

end Binding

def nodeOfThree : Nat → NodeConfig := .complete 3 1 true .plain

def connectedNode (i : Nat) : SyncHS := clientConnects (nodeOfThree i) .init

def firstOfThree (extra : Bytes) : Proposal :=
  newCandidateProposal transparent (nodeOfThree 0) .init [[1]] genesisCert 1 extra

/-- Node one holds the first version when node two forwards the other one. -/
theorem second_header_is_detected : ∃ ep ep', PassesChecks transparent (nodeOfThree 1) (connectedNode 1)
      (signForward transparent (nodeOfThree 2) (firstOfThree [50])) ep ∧
    PassesChecks transparent (nodeOfThree 1) (connectedNode 1) (firstOfThree [49]) ep' ∧
    BindsHeaders transparent (signForward transparent (nodeOfThree 2) (firstOfThree [50])) (firstOfThree [49]) ep ep' ∧
    ep.extBlock.getBlockHash transparent ≠ ep'.extBlock.getBlockHash transparent := by
  obtain ⟨ep,decoded,checked,ep',decoded',checked'⟩ :
      ∃ ep ∈ ExtProposal.fromProto transparent (signForward transparent (nodeOfThree 2) (firstOfThree [50])),
        checkForward transparent (nodeOfThree 1) (connectedNode 1) ep = some true ∧
        ∃ ep' ∈ ExtProposal.fromProto transparent (firstOfThree [49]),
          checkProposal transparent (nodeOfThree 1) (connectedNode 1) ep' = some true := by
    decide +kernel
  have passes : PassesChecks transparent (nodeOfThree 1) (connectedNode 1) _ ep := ⟨decoded,Or.inr checked⟩
  have passes' : PassesChecks transparent (nodeOfThree 1) (connectedNode 1) _ ep' := ⟨decoded',Or.inl checked'⟩
  have binds := (block_hash_binds_header_iff passes passes' (by unfold Platform.Apart; decide +kernel)).mpr
    (by unfold Proposal.FieldIsHash; decide +kernel)
  exact ⟨ep,ep',passes,passes',binds,fun same => absurd (binds.bound same) (by decide +kernel)⟩

/-! ## One hash for two headers -/

/-- The proposal with something else in the place of its hash. -/
def Proposal.relabel (prop : Proposal) (hash : Bytes) : Proposal :=
  { prop with block := prop.block.map fun b => { b with blockHash := hash } }

/-- Two versions of the first proposal that the leader sends out under one hash. -/
def sameLabel (extra : Bytes) : Proposal := (firstOfThree extra).relabel (List.replicate 32 7)

/-- The leader sends one version to node one and the other to node two, which forwards it. -/
def mixedForwards : List NodeEvent :=
  [.connect,.receive (.prop (sameLabel [49])),.work 0 [],.work 0 [],
    .receive (.prop (signForward transparent (nodeOfThree 2) (sameLabel [50]))),.work 0 []]

/-- Both versions pass all checks, have one block hash, which is that of neither header, and
complete the set of node one. -/
theorem one_hash_for_two_headers : (sameLabel [49]).header ≠ (sameLabel [50]).header ∧
    (∃ ep ep', PassesChecks transparent (nodeOfThree 1) (connectedNode 1) (sameLabel [49]) ep ∧
      PassesChecks transparent (nodeOfThree 1) (connectedNode 1)
        (signForward transparent (nodeOfThree 2) (sameLabel [50])) ep' ∧
      ep.extBlock.getBlockHash transparent = ep'.extBlock.getBlockHash transparent ∧
      ep.extBlock.getBlockHash transparent ≠ transparent.doHash (marshalHeader (sameLabel [49]).getHeader)) ∧
    ∃ node, (nodeMachine transparent (nodeOfThree 1)).Run .init mixedForwards node ∧
      node.state.equivocatingProposalInject = false ∧ size (row node.state.fpropMap 1) = 2 ∧
      ∃ b ∈ node.state.bc.blocksByHeight.lookup 1, b.extHeader = (sameLabel [50]).getHeader := by
  refine ⟨by decide +kernel,?_,?_⟩
  · obtain ⟨ep,decoded,checked,ep',decoded',checked',same,other⟩ :
        ∃ ep ∈ ExtProposal.fromProto transparent (sameLabel [49]),
          checkProposal transparent (nodeOfThree 1) (connectedNode 1) ep = some true ∧
          ∃ ep' ∈ ExtProposal.fromProto transparent (signForward transparent (nodeOfThree 2) (sameLabel [50])),
            checkForward transparent (nodeOfThree 1) (connectedNode 1) ep' = some true ∧
            ep.extBlock.getBlockHash transparent = ep'.extBlock.getBlockHash transparent ∧
            ep.extBlock.getBlockHash transparent ≠ transparent.doHash (marshalHeader (sameLabel [49]).getHeader) := by
      decide +kernel
    exact ⟨ep,ep',⟨decoded,Or.inl checked⟩,⟨decoded',Or.inr checked'⟩,same,other⟩
  · exact Guarded.Machine.reaches _
      (show ((nodeMachine transparent (nodeOfThree 1)).replay mixedForwards .init).any _ = true by decide +kernel)

end ReputationSMR
