import ReputationSMR.Streams
import ReputationSMR.WireSchema

/-! The wire format of `SyncHSMsg`: one table for each message type of `proto/`, with the
field numbers of the generated code. `Unmarshal` adds the fields of its input to an empty
message, so the messages that share one `Read` reach `protocol` as a single one, their
merge. The tables give one decoder with this property. On bytes that nobody encodes it differs
from the library, which has limits on varints and field numbers and keeps unknown fields, so
the results are about any codec that merges what was encoded and refuses what is cut off. -/
namespace ReputationSMR

open Wire Framing

/-! ## Merging

What the library makes of two occurrences of a message: the later scalar unless it has the
default value, the lists one after the other, messages inside merged in turn. -/

def mergeBytes (old new : Bytes) : Bytes := if new = [] then old else new

def mergeUint (old new : Nat) : Nat := if new = 0 then old else new

def mergeOption {β : Type} (empty : β) (merge : β → β → β) (old : Option β) : Option β → Option β
  | none => old
  | some new => some (merge (old.getD empty) new)

def ProtoHeader.merge (a m : ProtoHeader) : ProtoHeader :=
  ⟨mergeBytes a.parentHash m.parentHash,mergeBytes a.txHash m.txHash,mergeUint a.height m.height,
    mergeBytes a.extra m.extra⟩

def ProtoBody.merge (a m : ProtoBody) : ProtoBody := ⟨a.txs ++ m.txs,a.responses ++ m.responses⟩

def ProtoBlock.merge (a m : ProtoBlock) : ProtoBlock :=
  ⟨mergeOption ⟨[],[],0,[]⟩ ProtoHeader.merge a.header m.header,
    mergeOption ⟨[],[]⟩ ProtoBody.merge a.body m.body,mergeBytes a.blockHash m.blockHash⟩

def ProtoVoteData.merge (a m : ProtoVoteData) : ProtoVoteData :=
  ⟨mergeBytes a.blockHash m.blockHash,mergeUint a.view m.view,mergeUint a.owner m.owner⟩

def ProtoVoteBody.merge (a m : ProtoVoteBody) : ProtoVoteBody :=
  ⟨mergeUint a.voter m.voter,mergeBytes a.signature m.signature⟩

def ProtoVote.merge (a m : ProtoVote) : ProtoVote :=
  ⟨mergeOption ⟨[],0,0⟩ ProtoVoteData.merge a.data m.data,
    mergeOption ⟨0,[]⟩ ProtoVoteBody.merge a.body m.body⟩

def Proposal.merge (a m : Proposal) : Proposal where
  block := mergeOption ⟨none,none,[]⟩ ProtoBlock.merge a.block m.block
  forwardSender := mergeUint a.forwardSender m.forwardSender
  forwardSig := mergeBytes a.forwardSig m.forwardSig
  miner := mergeUint a.miner m.miner
  miningProof := mergeBytes a.miningProof m.miningProof
  view := mergeUint a.view m.view
  proposeEvidence := mergeBytes a.proposeEvidence m.proposeEvidence

def EvidenceData.merge (a m : EvidenceData) : EvidenceData :=
  ⟨mergeUint a.misbehaviourTarget m.misbehaviourTarget,mergeUint a.view m.view⟩

def Evidence.merge (a m : Evidence) : Evidence :=
  ⟨mergeOption ⟨0,0⟩ EvidenceData.merge a.evidenceData m.evidenceData,mergeUint a.evOrigin m.evOrigin,
    mergeBytes a.orSignature m.orSignature⟩

def mergeEvidence : Option Evidence → Option Evidence → Option Evidence :=
  mergeOption ⟨none,0,[]⟩ Evidence.merge

def mergeProposal : Option Proposal → Option Proposal → Option Proposal :=
  mergeOption ⟨none,0,[],0,[],0,[]⟩ Proposal.merge

def EquivocationEvidence.merge (a m : EquivocationEvidence) : EquivocationEvidence :=
  ⟨mergeEvidence a.evidence m.evidence,mergeProposal a.e1 m.e1,mergeProposal a.e2 m.e2⟩

def MalicousProposalEvidence.merge (a m : MalicousProposalEvidence) : MalicousProposalEvidence :=
  ⟨mergeEvidence a.evidence m.evidence,mergeProposal a.e m.e⟩

def MalicousVoteEvidence.merge (a m : MalicousVoteEvidence) : MalicousVoteEvidence :=
  ⟨mergeEvidence a.evidence m.evidence,mergeOption ⟨none,none⟩ ProtoVote.merge a.e m.e⟩

/-- Two messages of one kind are merged; of two kinds the later message replaces the
earlier one, and so does a later command. -/
def SyncHSMsg.merge : SyncHSMsg → SyncHSMsg → SyncHSMsg
  | .prop a, .prop m => .prop (a.merge m)
  | .eqevidence a, .eqevidence m => .eqevidence (a.merge m)
  | .mpevidence a, .mpevidence m => .mpevidence (a.merge m)
  | .mvevidence a, .mvevidence m => .mvevidence (a.merge m)
  | .ack a, .ack m => .ack (mergeOption ⟨none,none,[]⟩ ProtoBlock.merge a m)
  | .vote a, .vote m => .vote (a.merge m)
  | a, .unset => a
  | _, m => m

/-! ## The tables -/

def ProtoHeader.schema : Schema ProtoHeader where
  empty := ⟨[],[],0,[]⟩
  members := [
    .bytes 1 (by decide) { get := parentHash, set := fun m x => { m with parentHash := x } },
    .bytes 2 (by decide) { get := txHash, set := fun m x => { m with txHash := x } },
    .uint 3 (by decide) { get := height, set := fun m x => { m with height := x } },
    .bytes 4 (by decide) { get := extra, set := fun m x => { m with extra := x } }]
  distinct := by decide
  restores m := by simp

def ProtoBody.schema : Schema ProtoBody where
  empty := ⟨[],[]⟩
  members := [
    .repeated 1 (by decide) { get := txs, set := fun m x => { m with txs := x } },
    .repeated 2 (by decide) { get := responses, set := fun m x => { m with responses := x } }]
  distinct := by decide
  restores m := by simp

def ProtoBlock.schema : Schema ProtoBlock where
  empty := ⟨none,none,[]⟩
  members := [
    .message 1 (by decide) ProtoHeader.schema { get := header, set := fun m x => { m with header := x } },
    .message 2 (by decide) ProtoBody.schema { get := body, set := fun m x => { m with body := x } },
    .bytes 3 (by decide) { get := blockHash, set := fun m x => { m with blockHash := x } }]
  distinct := by decide
  restores m := by simp

def ProtoVoteData.schema : Schema ProtoVoteData where
  empty := ⟨[],0,0⟩
  members := [
    .bytes 1 (by decide) { get := blockHash, set := fun m x => { m with blockHash := x } },
    .uint 2 (by decide) { get := view, set := fun m x => { m with view := x } },
    .uint 3 (by decide) { get := owner, set := fun m x => { m with owner := x } }]
  distinct := by decide
  restores m := by simp

def ProtoVoteBody.schema : Schema ProtoVoteBody where
  empty := ⟨0,[]⟩
  members := [
    .uint 1 (by decide) { get := voter, set := fun m x => { m with voter := x } },
    .bytes 2 (by decide) { get := signature, set := fun m x => { m with signature := x } }]
  distinct := by decide
  restores m := by simp

def ProtoVote.schema : Schema ProtoVote where
  empty := ⟨none,none⟩
  members := [
    .message 1 (by decide) ProtoVoteData.schema { get := data, set := fun m x => { m with data := x } },
    .message 2 (by decide) ProtoVoteBody.schema { get := body, set := fun m x => { m with body := x } }]
  distinct := by decide
  restores m := by simp

def Proposal.schema : Schema Proposal where
  empty := ⟨none,0,[],0,[],0,[]⟩
  members := [
    .message 1 (by decide) ProtoBlock.schema { get := block, set := fun m x => { m with block := x } },
    .uint 2 (by decide) { get := forwardSender, set := fun m x => { m with forwardSender := x } },
    .bytes 3 (by decide) { get := forwardSig, set := fun m x => { m with forwardSig := x } },
    .uint 4 (by decide) { get := miner, set := fun m x => { m with miner := x } },
    .bytes 5 (by decide) { get := miningProof, set := fun m x => { m with miningProof := x } },
    .uint 6 (by decide) { get := view, set := fun m x => { m with view := x } },
    .bytes 7 (by decide) { get := proposeEvidence, set := fun m x => { m with proposeEvidence := x } }]
  distinct := by decide
  restores m := by simp

def EvidenceData.schema : Schema EvidenceData where
  empty := ⟨0,0⟩
  members := [
    .uint 1 (by decide) { get := misbehaviourTarget, set := fun m x => { m with misbehaviourTarget := x } },
    .uint 2 (by decide) { get := view, set := fun m x => { m with view := x } }]
  distinct := by decide
  restores m := by simp

def Evidence.schema : Schema Evidence where
  empty := ⟨none,0,[]⟩
  members := [
    .message 1 (by decide) EvidenceData.schema { get := evidenceData, set := fun m x => { m with evidenceData := x } },
    .uint 2 (by decide) { get := evOrigin, set := fun m x => { m with evOrigin := x } },
    .bytes 3 (by decide) { get := orSignature, set := fun m x => { m with orSignature := x } }]
  distinct := by decide
  restores m := by simp

def EquivocationEvidence.schema : Schema EquivocationEvidence where
  empty := ⟨none,none,none⟩
  members := [
    .message 1 (by decide) Evidence.schema { get := evidence, set := fun m x => { m with evidence := x } },
    .message 2 (by decide) Proposal.schema { get := e1, set := fun m x => { m with e1 := x } },
    .message 3 (by decide) Proposal.schema { get := e2, set := fun m x => { m with e2 := x } }]
  distinct := by decide
  restores m := by simp

def MalicousProposalEvidence.schema : Schema MalicousProposalEvidence where
  empty := ⟨none,none⟩
  members := [
    .message 1 (by decide) Evidence.schema { get := evidence, set := fun m x => { m with evidence := x } },
    .message 2 (by decide) Proposal.schema { get := e, set := fun m x => { m with e := x } }]
  distinct := by decide
  restores m := by simp

def MalicousVoteEvidence.schema : Schema MalicousVoteEvidence where
  empty := ⟨none,none⟩
  members := [
    .message 1 (by decide) Evidence.schema { get := evidence, set := fun m x => { m with evidence := x } },
    .message 2 (by decide) ProtoVote.schema { get := e, set := fun m x => { m with e := x } }]
  distinct := by decide
  restores m := by simp

/-! The bytes that are hashed and signed are those of the tables. -/

theorem ProtoHeader.schema_marshal (h : ProtoHeader) : schema.marshal h = h.marshal := by
  simp [Schema.marshal,Schema.fields,schema,marshal]

theorem ProtoVoteData.schema_marshal (d : ProtoVoteData) : schema.marshal d = d.marshal := by
  simp [Schema.marshal,Schema.fields,schema,marshal,fields]

theorem EvidenceData.schema_marshal (d : EvidenceData) : schema.marshal d = d.marshal := by
  simp [Schema.marshal,Schema.fields,schema,marshal]

/-- `CommitAck` has a block only. -/
def commitAckSchema : Schema (Option ProtoBlock) where
  empty := none
  members := [.message 1 (by decide) ProtoBlock.schema { get := id, set := fun _ x => x }]
  distinct := by decide
  restores m := by simp

namespace SyncHSMsg

def getProp : SyncHSMsg → Option Proposal
  | .prop p => some p
  | _ => none

def getEqevidence : SyncHSMsg → Option EquivocationEvidence
  | .eqevidence e => some e
  | _ => none

def getMpevidence : SyncHSMsg → Option MalicousProposalEvidence
  | .mpevidence e => some e
  | _ => none

def getMvevidence : SyncHSMsg → Option MalicousVoteEvidence
  | .mvevidence e => some e
  | _ => none

def getVote : SyncHSMsg → Option ProtoVote
  | .vote v => some v
  | _ => none

def schema : Schema SyncHSMsg where
  empty := .unset
  members := [
    .alternative 1 (by decide) Proposal.schema .prop getProp,
    .alternative 2 (by decide) EquivocationEvidence.schema .eqevidence getEqevidence,
    .alternative 3 (by decide) MalicousProposalEvidence.schema .mpevidence getMpevidence,
    .alternative 4 (by decide) MalicousVoteEvidence.schema .mvevidence getMvevidence,
    .alternative 5 (by decide) commitAckSchema .ack getAck,
    .alternativeBytes 6 (by decide) .tx getTx,
    .alternative 7 (by decide) ProtoVote.schema .vote getVote]
  distinct := by decide
  restores m := by cases m <;> simp [getProp,getEqevidence,getMpevidence,getMvevidence,getAck,getTx,getVote]

end SyncHSMsg

def SyncHSMsg.mergeAll (sent : List SyncHSMsg) : SyncHSMsg := sent.foldl SyncHSMsg.merge .unset

/-- What the wire format promises: encodings one after the other decode as the merge of the messages,
and not at all when the last one is cut off. -/
structure MergesMessages (c : MsgCodec) : Prop where
  whole : ∀ sent, c.unmarshal (broadcastBytes c sent) = some (.mergeAll sent)
  cut : ∀ sent m start missing, c.marshal m = start ++ missing → start ≠ [] → missing ≠ [] →
    c.unmarshal (broadcastBytes c sent ++ start) = none

/-! ## The codec of the tables -/

def msgCodec : MsgCodec := ⟨SyncHSMsg.schema.marshal,SyncHSMsg.schema.unmarshal⟩

/-- A `Read` that starts where a message starts: the whole messages it returns, and the first bytes of
the next message if it ends within one. -/
structure AlignedRead (c : MsgCodec) where
  sent : List SyncHSMsg
  start : Bytes
  cut : start ≠ [] → ∃ m missing, c.marshal m = start ++ missing ∧ missing ≠ []

namespace AlignedRead

variable {c : MsgCodec}

def bytes (r : AlignedRead c) : Bytes := broadcastBytes c r.sent ++ r.start

/-- What is made of it: all is lost with a message that is cut off. -/
def result (r : AlignedRead c) : Option SyncHSMsg := if r.start = [] then some (.mergeAll r.sent) else none

theorem decoded (merges : MergesMessages c) (r : AlignedRead c) : c.unmarshal r.bytes = r.result := by
  rw [bytes, result]
  split
  next whole => rw [whole, List.append_nil, merges.whole]
  next started =>
    obtain ⟨m,missing,cut,unfinished⟩ := r.cut started
    exact merges.cut r.sent m r.start missing cut started unfinished

end AlignedRead

/-- A forwarded proposal that shares a read with the vote of its sender is lost, and of two
votes the earlier one shows through where the later one has the default value. -/
example : protoMsgHandler msgCodec ([[.prop ⟨none,1,[],0,[],2,[]⟩,.vote ⟨some ⟨[7],2,0⟩,none⟩],
      [.vote ⟨some ⟨[7],2,3⟩,some ⟨3,[9]⟩⟩,.vote ⟨some ⟨[8],0,0⟩,some ⟨0,[5]⟩⟩]].map
        (broadcastBytes msgCodec)) =
    [.vote ⟨some ⟨[7],2,0⟩,none⟩,.vote ⟨some ⟨[8],2,3⟩,some ⟨3,[5]⟩⟩] := by
  decide +kernel

end ReputationSMR
