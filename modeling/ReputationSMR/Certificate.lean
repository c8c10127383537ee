import ReputationSMR.Chain

/-! `msg/partcert.go`, `msg/blockcert.go` and `NewCert`. The signature list and the
signer list are parallel; `voteMap` duplicates them for lookup, and a signer that is
listed twice keeps its last signature there. -/
namespace ReputationSMR

open Wire FiniteMap

structure PartialCertificate where
  data : Bytes
  ids : List Nat
  sigs : List Bytes
  voteMap : Map Nat Bytes
  deriving DecidableEq

/-- `valid` and `proto` are the cache of `toProto`. -/
structure BlockCertificate where
  part : PartialCertificate
  data : ProtoVoteData
  valid : Option Bool
  proto : Option Certificate
  deriving DecidableEq

def PartialCertificate.new : PartialCertificate := ⟨[],[],[],∅⟩

def BlockCertificate.new : BlockCertificate := ⟨.new,⟨[],0,0⟩,none,none⟩

/-- `GenesisCert` names the empty hash and view one, and has no signer. -/
def genesisCert : BlockCertificate := { BlockCertificate.new with data := ⟨emptyHash.bytes,1,0⟩ }

namespace BlockCertificate

def getBlockInfo (p : Platform) (bc : BlockCertificate) : Hash × Nat :=
  (p.toHash bc.data.blockHash,bc.data.view)

def init (bc : BlockCertificate) : BlockCertificate :=
  { bc with part := { bc.part with voteMap := ∅ } }

def setBlockInfo (bc : BlockCertificate) (hash : Hash) (view : Nat) : BlockCertificate :=
  { bc with
    data := { bc.data with blockHash := hash.bytes, view := view }
    valid := some false }

def addVote (bc : BlockCertificate) (v : ProtoVote) : BlockCertificate :=
  { bc with
    part := { bc.part with
      ids := bc.part.ids ++ [v.getVoter]
      sigs := bc.part.sigs ++ [v.getSignature]
      voteMap := bc.part.voteMap.insert v.getVoter v.getSignature }
    valid := some false }

def build (bc : BlockCertificate) : Certificate := ⟨bc.data.marshal,bc.part.sigs,bc.part.ids⟩

/-- Rebuilds the message when the cache is empty, stale or of another length. -/
def toProto (bc : BlockCertificate) : Certificate × BlockCertificate :=
  let fresh := (bc.build,{ bc with proto := some bc.build, valid := some true })
  match bc.proto with
  | none => fresh
  | some c => if bc.valid ≠ some true ∨ c.ids.length ≠ bc.part.ids.length then fresh else (c,bc)

/-- `none` when an id has no signature at its index: the loop then reads out of range. -/
def fromProto (p : Platform) (bc : BlockCertificate) (data : Certificate) : Option BlockCertificate :=
  if data.signatures.length < data.ids.length then none
  else some
    { bc with
      part := ⟨data.data,data.ids,data.signatures,
        (data.ids.zip data.signatures).foldl (fun m entry => m.insert entry.1 entry.2) ∅⟩
      data := p.unmarshalVoteData data.data
      proto := some data }

def getSigners (bc : BlockCertificate) : List Nat := bc.part.ids

def getSignatureFromID (bc : BlockCertificate) (id : Nat) : Option Bytes := bc.part.voteMap.lookup id

end BlockCertificate

/-- The votes are listed in the order in which the map was traversed. -/
def newCert (votes : List ProtoVote) (blockhash : Hash) (view : Nat) : BlockCertificate :=
  votes.foldl BlockCertificate.addVote ((BlockCertificate.new.setBlockInfo blockhash view).init)

/-- The certificate of a block that needs no votes. -/
def emptyCertificate (hash : Hash) (view : Nat) : BlockCertificate :=
  BlockCertificate.new.setBlockInfo hash view

/-- `msg/proposal.go`: a proposal with its block and the certificate of its parent. -/
structure ExtProposal where
  proposal : Proposal
  extBlock : ExtBlock
  blockCertificate : BlockCertificate
  deriving DecidableEq

/-- `none` when the block is absent, its hash is too short to be copied, or the certificate
lists more ids than signatures. -/
def ExtProposal.fromProto (p : Platform) (data : Proposal) : Option ExtProposal := do
  let block ← data.block
  guard (p.copies block.blockHash)
  let cert ← BlockCertificate.new.fromProto p (p.unmarshalCertificate data.proposeEvidence)
  some ⟨data,ExtBlock.fromProto p block,cert⟩

theorem ExtProposal.fromProto_eq_some {p : Platform} {data : Proposal} {ep : ExtProposal} :
    ExtProposal.fromProto p data = some ep ↔ ∃ block cert, data.block = some block ∧ p.copies block.blockHash ∧
      BlockCertificate.new.fromProto p (p.unmarshalCertificate data.proposeEvidence) = some cert ∧
      ep = ⟨data,ExtBlock.fromProto p block,cert⟩ := by
  simp only [ExtProposal.fromProto, Option.bind_eq_bind, Option.bind_eq_some_iff, Option.guard_eq_some']
  constructor
  · rintro ⟨block,found,_,whole,cert,decoded,same⟩
    exact ⟨block,cert,found,whole,decoded,(Option.some.inj same).symm⟩
  · rintro ⟨block,cert,found,whole,decoded,rfl⟩
    exact ⟨block,found,(),whole,cert,decoded,rfl⟩

/-! ## What a certificate carries -/

theorem foldl_addVote (votes : List ProtoVote) (bc : BlockCertificate) :
    (votes.foldl BlockCertificate.addVote bc).data = bc.data ∧
    (votes.foldl BlockCertificate.addVote bc).part.ids = bc.part.ids ++ votes.map ProtoVote.getVoter ∧
    (votes.foldl BlockCertificate.addVote bc).part.sigs =
      bc.part.sigs ++ votes.map ProtoVote.getSignature ∧
    (votes.foldl BlockCertificate.addVote bc).proto = bc.proto := by
  induction votes generalizing bc with
  | nil => simp
  | cons v rest ih =>
    obtain ⟨data,ids,sigs,proto⟩ := ih (bc.addVote v)
    simp only [List.foldl_cons, List.map_cons]
    refine ⟨data,?_,?_,proto⟩
    · rw [ids]; simp [BlockCertificate.addVote]
    · rw [sigs]; simp [BlockCertificate.addVote]

@[simp] theorem newCert_data (votes : List ProtoVote) (hash : Hash) (view : Nat) :
    (newCert votes hash view).data = ⟨hash.bytes,view,0⟩ :=
  (foldl_addVote votes _).1

@[simp] theorem newCert_ids (votes : List ProtoVote) (hash : Hash) (view : Nat) :
    (newCert votes hash view).part.ids = votes.map ProtoVote.getVoter :=
  (foldl_addVote votes _).2.1

@[simp] theorem newCert_sigs (votes : List ProtoVote) (hash : Hash) (view : Nat) :
    (newCert votes hash view).part.sigs = votes.map ProtoVote.getSignature :=
  (foldl_addVote votes _).2.2.1

/-- A certificate as nodes build them: not encoded before, with a signature for each signer. -/
structure BlockCertificate.Paired (bc : BlockCertificate) : Prop where
  uncached : bc.proto = none
  even : bc.part.ids.length = bc.part.sigs.length

theorem newCert_paired (votes : List ProtoVote) (hash : Hash) (view : Nat) : (newCert votes hash view).Paired := by
  constructor
  · exact (foldl_addVote votes _).2.2.2
  · simp

theorem newCert_toProto (votes : List ProtoVote) (hash : Hash) (view : Nat) :
    (newCert votes hash view).toProto.1 = ⟨ProtoVoteData.marshal ⟨hash.bytes,view,0⟩,
      votes.map ProtoVote.getSignature,votes.map ProtoVote.getVoter⟩ := by
  simp [BlockCertificate.toProto,(newCert_paired votes hash view).uncached,BlockCertificate.build]

theorem newCert_signature (votes : List ProtoVote) (hash : Hash) (view : Nat)
    (distinct : (votes.map ProtoVote.getVoter).Nodup) (v : ProtoVote) (member : v ∈ votes) :
    (newCert votes hash view).getSignatureFromID v.getVoter = some v.getSignature := by
  have kept (votes : List ProtoVote) (bc : BlockCertificate)
      (absent : v.getVoter ∉ votes.map ProtoVote.getVoter) :
      (votes.foldl BlockCertificate.addVote bc).part.voteMap.lookup v.getVoter =
        bc.part.voteMap.lookup v.getVoter := by
    induction votes generalizing bc with
    | nil => rfl
    | cons w rest ih =>
      simp only [List.map_cons, List.mem_cons, not_or] at absent
      rw [List.foldl_cons, ih _ absent.2]
      exact (lookup_insert _ _ _ _).trans (if_neg absent.1)
  obtain ⟨before,after,rfl⟩ := List.append_of_mem member
  simp only [List.map_append, List.map_cons, List.nodup_append, List.nodup_cons] at distinct
  rw [newCert, BlockCertificate.getSignatureFromID, List.foldl_append, List.foldl_cons,
    kept after _ distinct.2.1.1]
  exact (lookup_insert _ _ _ _).trans (if_pos rfl)

theorem zip_lookup (entries : List (Nat × Bytes)) (m : Map Nat Bytes) (id : Nat) :
    ((entries.foldl (fun m entry => m.insert entry.1 entry.2) m).lookup id).isSome ↔
      (∃ sig, (id,sig) ∈ entries) ∨ (m.lookup id).isSome := by
  induction entries generalizing m with
  | nil => simp
  | cons entry rest ih =>
    rw [List.foldl_cons, ih, lookup_insert]
    by_cases same : id = entry.1
    · subst same
      simp only [if_true, Option.isSome_some, or_true, List.mem_cons, true_iff]
      exact Or.inl ⟨entry.2,Or.inl rfl⟩
    · have apart (sig : Bytes) : (id,sig) ≠ entry := fun eq => same (congrArg Prod.fst eq)
      simp [same,apart]

theorem mem_of_zip_lookup {entries : List (Nat × Bytes)} {m : Map Nat Bytes} {id : Nat} {sig : Bytes}
    (found : (entries.foldl (fun m entry => m.insert entry.1 entry.2) m).lookup id = some sig) :
    (id,sig) ∈ entries ∨ m.lookup id = some sig := by
  induction entries generalizing m with
  | nil => exact Or.inr found
  | cons entry rest ih =>
    rcases ih found with later | earlier
    · exact Or.inl (List.mem_cons_of_mem entry later)
    · rw [lookup_insert] at earlier
      split at earlier
      next same =>
        obtain rfl := Option.some.inj earlier
        exact Or.inl (same ▸ List.mem_cons_self)
      next => exact Or.inr earlier

end ReputationSMR
