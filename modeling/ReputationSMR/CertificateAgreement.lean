import ReputationSMR.CertificateChecks
import ReputationSMR.Common

/-! Building and checking a certificate agree. `voteHandler` adds up the voters of a pool
under the reputations of its view, `IsCertValid` the signers of a list that came over the
wire under those of the view before; for the same votes the two tests decide alike. -/
namespace ReputationSMR

open Wire FiniteMap

/-- Votes for one block in one view: distinct voters with an entry in the reputations, whose
keys the receiver has and whose signatures decode. -/
structure Ballot (p : Platform) (receiver : NodeConfig) (reputations : Map Nat ℚ) (hash : Hash) (view : Nat)
    (votes : List ProtoVote) : Prop where
  distinct : (votes.map ProtoVote.getVoter).Nodup
  cast : ∀ w ∈ votes, ∃ d, w.data = some d ∧ p.toHash d.blockHash = hash ∧ d.view = view
  listed : ∀ w ∈ votes, w.getVoter ∈ reputations.keys
  keys : ∀ w ∈ votes, w.getVoter ∈ receiver.nodeKeyMap
  decodes : ∀ w ∈ votes, ∀ data, p.verify w.getVoter data w.getSignature ≠ none

/-- A block other than the genesis block that the node has and that needs votes. -/
structure NeedsVotes (n : SyncHS) (hash : Hash) : Prop where
  nongenesis : hash ≠ emptyHash
  known : ∃ b, n.bc.blocksByHash.lookup hash = some b ∧ b.getExtra.length ≠ 1

/-- The handler builds the certificate when it takes one of the votes, and has pooled it
with others of them. -/
def BuildsCert (p : Platform) (cfg : NodeConfig) (n : SyncHS) (votes : List ProtoVote) (bc : BlockCertificate) : Prop :=
  ∃ v order n' effect, voteHandler p cfg n v order = some (n',effect) ∧ .addCert bc n.view ∈ effect.jobs ∧
    ∀ i w, (n.poolWith v).lookup i = some w → w ∈ votes ∧ w.getVoter = i

/-- What the receiver makes of the certificate that `NewCert`, `ToProto` and `Marshal` send it. -/
def verdictOn (p : Platform) (cfg : NodeConfig) (n : SyncHS) (bc : BlockCertificate) : Option Bool :=
  (BlockCertificate.new.fromProto p (p.unmarshalCertificate bc.toProto.1.marshal)).bind (isCertValid p cfg n)

theorem Job.eq_addCert {job : Job} {height : Nat} {bc : BlockCertificate} (stored : job.storedCert = some (height,bc)) :
    job = .addCert bc height := by
  cases job <;> simp_all [storedCert]

section Agreement

variable {p : Platform} {sender receiver : NodeConfig} {n m : SyncHS} {hash : Hash} {votes : List ProtoVote}

theorem newCert_decoded (p : Platform) (votes : List ProtoVote) (hash : Hash) (view : Nat) :
    BlockCertificate.new.fromProto p (p.unmarshalCertificate (newCert votes hash view).toProto.1.marshal) =
      some (decodedCert (newCert votes hash view)) :=
  fromProto_toProto p _ (newCert_paired votes hash view)

theorem Ballot.verdict {reputations : Map Nat ℚ} {view : Nat} (copies : ∀ h : Hash, p.toHash h.bytes = h)
    (ballot : Ballot p receiver reputations hash view votes) (needs : NeedsVotes m hash)
    (same : row m.reputationMap (m.view - 1) = reputations) (v : Nat) :
    verdictOn p receiver m (newCert votes hash v) =
      some (decide (total reputations * (1 / 2) < sumAt reputations (votes.map ProtoVote.getVoter).toFinset)) := by
  obtain ⟨b,found,votable⟩ := needs.known
  have info : ((decodedCert (newCert votes hash v)).getBlockInfo p).1 = hash := by
    rw [BlockCertificate.getBlockInfo]
    simp only [decodedCert, newCert_data]
    exact copies hash
  have whole : p.copies (decodedCert (newCert votes hash v)).data.blockHash := by
    simp only [decodedCert, newCert_data]
    exact p.copies_hash hash
  rw [verdictOn, newCert_decoded, Option.bind_some, isCertValid, if_neg (not_not.mpr whole), info,
    if_neg needs.nongenesis, found]
  simp only [if_neg votable, same, newCert_weight ballot.distinct ballot.decodes ballot.keys ballot.listed,
    SyncHS.getCertBenchMark]

theorem Ballot.sub {reputations : Map Nat ℚ} {view : Nat} {some : List ProtoVote}
    (ballot : Ballot p receiver reputations hash view votes) (within : some ⊆ votes)
    (distinct : (some.map ProtoVote.getVoter).Nodup) : Ballot p receiver reputations hash view some :=
  ⟨distinct,fun w member => ballot.cast w (within member),fun w member => ballot.listed w (within member),
    fun w member => ballot.keys w (within member),fun w member => ballot.decodes w (within member)⟩

theorem BuildsCert.pooled {bc : BlockCertificate} (builds : BuildsCert p sender n votes bc)
    (cast : ∀ w ∈ votes, ∃ d, w.data = some d ∧ p.toHash d.blockHash = hash ∧ d.view = n.view) :
    ∃ pooled, pooled ⊆ votes ∧ (pooled.map ProtoVote.getVoter).Nodup ∧ bc = newCert pooled hash n.view ∧
      n.getCertBenchMark n.view < n.weight (pooled.map ProtoVote.getVoter).toFinset := by
  obtain ⟨v,order,n',effect,ran,stored,own⟩ := builds
  cases voteHandler_cases ran with
  | foreign d _ _ => simp at stored
  | dropped d _ _ _ => simp [Effect.none] at stored
  | counted d n' effect joins counted =>
    cases counted with
    | late _ => simp [Effect.none] at stored
    | pooled _ _ _ => simp [Effect.none] at stored
    | certifies _ _ above =>
      have pool : (n.openPool n.view).poolWith v = n.poolWith v := by simp [SyncHS.poolWith]
      have keyed (i : Nat) (w : ProtoVote) (found : (n.poolWith v).lookup i = some w) : w.getVoter = i :=
        (own i w found).2
      have voters := poolVotes_voters (n.poolWith v) order keyed
      have enumerates := traversal_enumerates (n.poolWith v) order
      have own' : v ∈ votes := (own v.getVoter v ((lookup_insert _ _ _ _).trans (if_pos rfl))).1
      obtain ⟨d',data,named,view⟩ := cast v own'
      obtain rfl := Option.some.inj (joins.data.symm.trans data)
      refine ⟨poolVotes (n.poolWith v) order,?_,voters ▸ enumerates.1,?_,?_⟩
      · intro w member
        obtain ⟨i,_,found⟩ := List.mem_filterMap.mp member
        exact (own i w found).1
      · simp only [List.mem_singleton, Job.addCert.injEq] at stored
        rw [stored.1, SyncHS.certWith, pool, named, view]
      · rw [voters, enumerates.2]
        simpa [SyncHS.weight,SyncHS.getCertBenchMark,pool] using above

/-- Nodes with equal reputations for a view agree on its certificates: what the handler of
one builds from some votes the other accepts in the next view, and a certificate of votes
that do not cross the threshold of the first is refused by the second. -/
theorem certificates_agree (copies : ∀ h : Hash, p.toHash h.bytes = h)
    (reputations : row n.reputationMap n.view = row m.reputationMap n.view) (later : m.view = n.view + 1)
    (ballot : Ballot p receiver (row n.reputationMap n.view) hash n.view votes) (needs : NeedsVotes m hash) :
    (∀ bc, BuildsCert p sender n votes bc → verdictOn p receiver m bc = some true) ∧
    ∀ few, few ⊆ votes → (few.map ProtoVote.getVoter).Nodup →
      n.weight (few.map ProtoVote.getVoter).toFinset ≤ n.getCertBenchMark n.view →
      verdictOn p receiver m (newCert few hash n.view) = some false := by
  have same : row m.reputationMap (m.view - 1) = row n.reputationMap n.view := by
    rw [later, Nat.add_sub_cancel, reputations]
  constructor
  · intro bc builds
    obtain ⟨pooled,within,distinct,rfl,above⟩ := builds.pooled ballot.cast
    rw [(ballot.sub within distinct).verdict copies needs same]
    exact congrArg some (decide_eq_true above)
  · intro few within distinct below
    rw [(ballot.sub within distinct).verdict copies needs same]
    exact congrArg some (decide_eq_false (not_lt.mpr below))

end Agreement

def holdsOwnVote : SyncHS :=
  { clientConnects leaderOfTwo .init with
    receivedVotes := (∅ : Map Nat (Map Nat ProtoVote)).insert 1 ((∅ : Map Nat ProtoVote).insert 0 (voteOn 0 0 1)) }

def followsInSecond : SyncHS :=
  { clientConnects leaderOfTwo .init with
    view := 2
    bc := BlockChain.newChain.store transparent 1 (firstBlockOf 0).extBlock }

theorem first_certificate_is_accepted : ∃ bc, BuildsCert transparent leaderOfTwo holdsOwnVote
      [voteOn 0 0 1,voteOn 1 0 1] bc ∧
    verdictOn transparent (.complete 2 1 true .plain 1) followsInSecond bc = some true ∧
    verdictOn transparent (.complete 2 1 true .plain 1) followsInSecond (newCert [voteOn 0 0 1] firstHash 1) =
      some false := by
  have ballot : Ballot transparent (.complete 2 1 true .plain 1) (row holdsOwnVote.reputationMap holdsOwnVote.view)
      firstHash holdsOwnVote.view [voteOn 0 0 1,voteOn 1 0 1] := by
    refine ⟨by decide +kernel,?_,by decide +kernel,by decide +kernel,?_⟩
    · simp only [List.forall_mem_cons, List.not_mem_nil, false_imp_iff, implies_true, and_true]
      exact ⟨⟨_,rfl,by decide +kernel,rfl⟩,⟨_,rfl,by decide +kernel,rfl⟩⟩
    · intro w _ data
      exact Option.some_ne_none _
  have needs : NeedsVotes followsInSecond firstHash :=
    ⟨by decide +kernel,by
      obtain ⟨b,found,votable⟩ : ∃ b ∈ followsInSecond.bc.blocksByHash.lookup firstHash, b.getExtra.length ≠ 1 := by
        decide +kernel
      exact ⟨b,found,votable⟩⟩
  obtain ⟨⟨n',effect⟩,ran,job,member,⟨height,bc⟩,stored,rfl⟩ :
      ∃ out ∈ voteHandler transparent leaderOfTwo holdsOwnVote (voteOn 1 0 1) [0,1], ∃ job ∈ out.2.jobs,
        ∃ cert ∈ job.storedCert, cert.1 = 1 := by
    decide +kernel
  have builds : BuildsCert transparent leaderOfTwo holdsOwnVote [voteOn 0 0 1,voteOn 1 0 1] bc := by
    refine ⟨voteOn 1 0 1,[0,1],n',effect,ran,?_,?_⟩
    · rw [Job.eq_addCert stored] at member
      exact member
    · intro i w found
      have pooled : ∀ i ∈ (holdsOwnVote.poolWith (voteOn 1 0 1)).keys,
          ∀ w ∈ (holdsOwnVote.poolWith (voteOn 1 0 1)).lookup i, w ∈ [voteOn 0 0 1,voteOn 1 0 1] ∧ w.getVoter = i := by
        decide +kernel
      exact pooled i ((mem_keys_iff _ _).mpr ⟨w,found⟩) w found
  obtain ⟨accepted,refused⟩ := certificates_agree transparent_laws.copies (by decide +kernel) rfl ballot needs
  exact ⟨bc,builds,accepted bc builds,refused [voteOn 0 0 1] (by simp) (by decide +kernel) (by decide +kernel)⟩

end ReputationSMR
