import ReputationSMR.Common
import ReputationSMR.VoteCertificates

/-! What `IsCertValid` makes sure of, and what the certificates that honest voters get for
their votes contain. The check adds the reputation of every entry of the signer list and
looks at the error of the key library only, so a certificate counts as many times as its
signers are listed and with any signature that decodes. -/
namespace ReputationSMR

open Wire FiniteMap

/-! ## The loop over the signers -/

section Loop

variable {p : Platform} {cfg : NodeConfig} {reputations : Map Nat ℚ} {bc : BlockCertificate}

/-- What a completed loop has seen: each signer has a key, a stored signature that decodes
and a reputation, which was added once per entry of the list. -/
structure Weighed (p : Platform) (cfg : NodeConfig) (reputations : Map Nat ℚ) (bc : BlockCertificate)
    (ids : List Nat) (sum : ℚ) : Prop where
  keys : ∀ id ∈ ids, id ∈ cfg.nodeKeyMap
  decodes : ∀ id ∈ ids, ∃ sig, bc.getSignatureFromID id = some sig ∧ p.verify id bc.part.data sig ≠ none
  listed : ∀ id ∈ ids, id ∈ reputations.keys
  weight : sum = (ids.map fun id => (reputations.lookup id).getD 0).sum

theorem Weighed.cons {ids : List Nat} {id : Nat} {sig : Bytes} {reputation sum : ℚ}
    (weighed : Weighed p cfg reputations bc ids sum) (stored : bc.getSignatureFromID id = some sig)
    (known : id ∈ cfg.nodeKeyMap) (decodes : p.verify id bc.part.data sig ≠ none)
    (entry : reputations.lookup id = some reputation) :
    Weighed p cfg reputations bc (id :: ids) (reputation + sum) where
  keys := List.forall_mem_cons.mpr ⟨known,weighed.keys⟩
  decodes := List.forall_mem_cons.mpr ⟨⟨sig,stored,decodes⟩,weighed.decodes⟩
  listed := List.forall_mem_cons.mpr ⟨(mem_keys_iff _ _).mpr ⟨reputation,entry⟩,weighed.listed⟩
  weight := by simp [weighed.weight,entry]

theorem certWeight_weighed {ids : List Nat} {start sum : ℚ}
    (counted : certWeight p cfg reputations bc ids start = some (some sum)) :
    Weighed p cfg reputations bc ids (sum - start) := by
  induction ids generalizing start with
  | nil =>
    obtain rfl := Option.some.inj (Option.some.inj counted)
    exact ⟨nofun,nofun,nofun,by simp⟩
  | cons id rest ih =>
    simp only [certWeight] at counted
    split at counted
    next => cases counted
    next sig stored =>
      split at counted
      next => contradiction
      next key known =>
        obtain rfl := getPubKeyFromID_eq known
        split at counted
        next => cases counted
        next decodes =>
          split at counted
          next => contradiction
          next reputation entry =>
            have whole := (ih counted).cons stored (mem_of_getPubKeyFromID known) decodes entry
            rwa [show reputation + (sum - (start + reputation)) = sum - start by linarith] at whole

end Loop

/-- A certificate that came with a proposal and was found valid, for a block with votes:
not the genesis block, and the extra data of the block is not a single byte. -/
structure AcceptsCert (p : Platform) (cfg : NodeConfig) (n : SyncHS) (wire : Bytes) (bc : BlockCertificate) :
    Prop where
  decoded : BlockCertificate.new.fromProto p (p.unmarshalCertificate wire) = some bc
  valid : isCertValid p cfg n bc = some true
  nongenesis : (bc.getBlockInfo p).1 ≠ emptyHash
  voted : ∀ b ∈ n.bc.blocksByHash.lookup (bc.getBlockInfo p).1, b.getExtra.length ≠ 1

instance (p : Platform) (cfg : NodeConfig) (n : SyncHS) (wire : Bytes) (bc : BlockCertificate) :
    Decidable (AcceptsCert p cfg n wire bc) :=
  decidable_of_iff (BlockCertificate.new.fromProto p (p.unmarshalCertificate wire) = some bc ∧
      isCertValid p cfg n bc = some true ∧ (bc.getBlockInfo p).1 ≠ emptyHash ∧
      ∀ b ∈ n.bc.blocksByHash.lookup (bc.getBlockInfo p).1, b.getExtra.length ≠ 1)
    ⟨fun ⟨decoded,valid,nongenesis,voted⟩ => ⟨decoded,valid,nongenesis,voted⟩,
      fun ⟨decoded,valid,nongenesis,voted⟩ => ⟨decoded,valid,nongenesis,voted⟩⟩

def SyncHS.certReputations (n : SyncHS) : Map Nat ℚ := row n.reputationMap (n.view - 1)

section Accepted

variable {p : Platform} {cfg : NodeConfig} {n : SyncHS} {wire : Bytes} {bc : BlockCertificate}

theorem AcceptsCert.weighed (accepts : AcceptsCert p cfg n wire bc) : ∃ sum,
    Weighed p cfg n.certReputations bc bc.getSigners sum ∧ total n.certReputations / 2 < sum := by
  have valid := accepts.valid
  rw [isCertValid] at valid
  split at valid
  next => contradiction
  next =>
  rw [if_neg accepts.nongenesis] at valid
  split at valid
  next => contradiction
  next b found =>
    rw [if_neg (accepts.voted b found)] at valid
    split at valid
    next => contradiction
    next => contradiction
    next sum counted =>
      refine ⟨sum,?_,?_⟩
      · have weighed := certWeight_weighed counted
        rwa [sub_zero] at weighed
      · have above := of_decide_eq_true (Option.some.inj valid)
        simpa [SyncHS.getCertBenchMark,SyncHS.certReputations,div_eq_mul_inv] using above

theorem AcceptsCert.majority (accepts : AcceptsCert p cfg n wire bc) (distinct : bc.getSigners.Nodup) :
    bc.getSigners.toFinset ⊆ n.certReputations.keys ∧
      total n.certReputations / 2 < sumAt n.certReputations bc.getSigners.toFinset := by
  obtain ⟨sum,weighed,above⟩ := accepts.weighed
  refine ⟨fun id member => weighed.listed id (List.mem_toFinset.mp member),?_⟩
  rwa [sumAt, List.sum_toFinset _ distinct, ← weighed.weight]

end Accepted

/-! ## Certificates for the first block of a network of two

The leader of the first view looks at them in the second one. -/

def leaderOfTwo : NodeConfig := .complete 2 1 true .plain 0

def firstCertData : ProtoVoteData := ⟨(transparent.doHash (marshalHeader firstOfTwo.getHeader)).bytes,1,0⟩

/-- A certificate on the wire that lists the given nodes with their signatures over some
data. -/
def signedCert (signers : List Nat) (data : Bytes) : Bytes :=
  Certificate.marshal ⟨firstCertData.marshal,signers.map fun i => transparent.sign i data,signers⟩

def receivedCert (wire : Bytes) : BlockCertificate :=
  (BlockCertificate.new.fromProto transparent (transparent.unmarshalCertificate wire)).getD .new

/-! ## Weight -/

section Weight

variable {p : Platform} {cfg : NodeConfig} {n : SyncHS} {wire : Bytes} {bc : BlockCertificate}

/-- The distinct signers hold more than half of the reputation that the certificate is weighed with. -/
def SyncHS.Outweighs (n : SyncHS) (bc : BlockCertificate) : Prop :=
  total n.certReputations / 2 < sumAt n.certReputations bc.getSigners.toFinset

def SyncHS.PositiveCertReputations (n : SyncHS) : Prop := ∀ i x, n.certReputations.lookup i = some x → 0 < x

/-- Every listed node has reputation one, and a node that is not listed has as much as all of them. -/
def balanced (ids : List Nat) : Map Nat ℚ :=
  (fill (fun _ => 1) ids ∅).insert (ids.sum + 1) ids.toFinset.card

theorem unlisted (ids : List Nat) : ids.sum + 1 ∉ ids := by
  intro member
  have bound := List.le_sum_of_mem member
  omega

theorem lookup_balanced (ids : List Nat) (i : Nat) : (balanced ids).lookup i =
    if i = ids.sum + 1 then some (ids.toFinset.card : ℚ) else if i ∈ ids then some 1 else none := by
  rw [balanced, lookup_insert, lookup_fill]
  rfl

theorem balanced_listed {ids : List Nat} {i : Nat} (listed : i ∈ ids) : (balanced ids).lookup i = some 1 := by
  have other : i ≠ ids.sum + 1 := fun same => unlisted ids (same ▸ listed)
  rw [lookup_balanced, if_neg other, if_pos listed]

theorem sumAt_balanced (ids : List Nat) : sumAt (balanced ids) ids.toFinset = ids.toFinset.card := by
  rw [sumAt, Finset.sum_congr rfl (g := fun _ => (1 : ℚ)), Finset.sum_const, nsmul_eq_mul, mul_one]
  intro i member
  rw [balanced_listed (List.mem_toFinset.mp member), Option.getD_some]

theorem total_balanced (ids : List Nat) : total (balanced ids) = 2 * ids.toFinset.card := by
  have keys : (balanced ids).keys = insert (ids.sum + 1) ids.toFinset := by
    ext i
    rw [mem_keys_iff, lookup_balanced, Finset.mem_insert, List.mem_toFinset]
    by_cases last : i = ids.sum + 1
    · simp [last]
    · by_cases listed : i ∈ ids <;> simp [last,listed]
  have entry : (balanced ids).lookup (ids.sum + 1) = some (ids.toFinset.card : ℚ) := by
    rw [lookup_balanced, if_pos rfl]
  have rest := sumAt_balanced ids
  rw [sumAt] at rest
  rw [total, keys, sumAt, Finset.sum_insert (mt List.mem_toFinset.mp (unlisted ids)), entry, Option.getD_some, rest, two_mul]

/-- A node that accepts a certificate with some reputations accepts it with those in which the
entries of its signer list, counted one by one, exceed half. -/
theorem AcceptsCert.reweigh (accepts : AcceptsCert p cfg n wire bc) (reputations : Map Nat ℚ)
    (listed : ∀ id ∈ bc.getSigners, id ∈ reputations.keys)
    (above : total reputations / 2 < (bc.getSigners.map fun id => (reputations.lookup id).getD 0).sum) :
    AcceptsCert p cfg { n with reputationMap := n.reputationMap.insert (n.view - 1) reputations } wire bc := by
  refine ⟨accepts.decoded,?_,accepts.nongenesis,accepts.voted⟩
  obtain ⟨_,weighed,_⟩ := accepts.weighed
  have valid := accepts.valid
  rw [isCertValid] at valid ⊢
  split at valid
  next => contradiction
  next whole =>
    rw [if_neg whole]
    rw [if_neg accepts.nongenesis] at valid ⊢
    split at valid
    next => contradiction
    next b found =>
      have rows : row (n.reputationMap.insert (n.view - 1) reputations) (n.view - 1) = reputations :=
        (row_insert _ _ _ _).trans (if_pos rfl)
      simp only [found, if_neg (accepts.voted b found), SyncHS.getCertBenchMark, rows,
        certWeight_eq bc.getSigners 0 weighed.decodes weighed.keys listed]
      refine congrArg some (decide_eq_true ?_)
      linarith

/-- A certificate that some node accepts has distinct signers with more than half of the
reputation in every state that accepts it exactly when it lists nobody twice. Two such
certificates of nodes with the same reputations have a common signer. -/
theorem distinct_signers_outweigh_iff (accepts : AcceptsCert p cfg n wire bc) :
    ((∀ cfg' n', AcceptsCert p cfg' n' wire bc → n'.PositiveCertReputations → n'.Outweighs bc) ↔
      bc.getSigners.Nodup) ∧
    (n.PositiveCertReputations → bc.getSigners.Nodup → ∀ cfg' n' wire' bc', AcceptsCert p cfg' n' wire' bc' →
      bc'.getSigners.Nodup → n'.certReputations = n.certReputations → ∃ i, i ∈ bc.getSigners ∧ i ∈ bc'.getSigners) := by
  refine ⟨⟨?_,fun distinct cfg' n' accepts' _ => (accepts'.majority distinct).2⟩,?_⟩
  · intro outweighs
    by_contra repeated
    have longer : bc.getSigners.toFinset.card < bc.getSigners.length :=
      lt_of_le_of_ne (List.toFinset_card_le _) fun same => repeated (Multiset.toFinset_card_eq_card_iff_nodup.mp same)
    have someone : 0 < bc.getSigners.toFinset.card := by
      refine Finset.card_pos.mpr (List.toFinset_nonempty_iff _ |>.mpr ?_)
      rintro empty
      simp [empty] at repeated
    have ones : (bc.getSigners.map fun id => ((balanced bc.getSigners).lookup id).getD 0) =
        bc.getSigners.map fun _ => (1 : ℚ) :=
      List.map_congr_left fun id member => by rw [balanced_listed member, Option.getD_some]
    have rows : row (n.reputationMap.insert (n.view - 1) (balanced bc.getSigners)) (n.view - 1) =
        balanced bc.getSigners := (row_insert _ _ _ _).trans (if_pos rfl)
    have accepts' := accepts.reweigh (balanced bc.getSigners)
      (fun id member => (mem_keys_iff _ _).mpr ⟨1,balanced_listed member⟩)
      (by
        rw [ones, total_balanced, List.map_const', List.sum_replicate, nsmul_eq_mul, mul_one,
          mul_div_cancel_left₀ _ two_ne_zero]
        exact_mod_cast longer)
    have positive : SyncHS.PositiveCertReputations
        { n with reputationMap := n.reputationMap.insert (n.view - 1) (balanced bc.getSigners) } := by
      intro i x found
      rw [SyncHS.certReputations, rows, lookup_balanced] at found
      split at found
      next =>
        obtain rfl := Option.some.inj found
        exact_mod_cast someone
      next =>
        split at found
        next => obtain rfl := Option.some.inj found; exact one_pos
        next => contradiction
    have heavy := outweighs cfg _ accepts' positive
    rw [SyncHS.Outweighs, SyncHS.certReputations, rows, total_balanced, sumAt_balanced,
      mul_div_cancel_left₀ _ two_ne_zero] at heavy
    exact lt_irrefl _ heavy
  · intro positive distinct cfg' n' wire' bc' accepts' distinct' same
    obtain ⟨within,major⟩ := accepts.majority distinct
    obtain ⟨within',major'⟩ := accepts'.majority distinct'
    rw [same] at within' major'
    have nonneg (i : Nat) (member : i ∈ n.certReputations.keys) : 0 ≤ (n.certReputations.lookup i).getD 0 := by
      obtain ⟨x,found⟩ := (mem_keys_iff _ i).mp member
      simpa [found] using (positive i x found).le
    obtain ⟨i,common⟩ := WeightedQuorum.majorities_meet _ _ _ _ within within' nonneg major major'
    simp only [Finset.mem_inter, List.mem_toFinset] at common
    exact ⟨i,common⟩

end Weight

/-- The certificate of both nodes. -/
theorem two_signers_outweigh : ∃ node : Node, node.state.view = 2 ∧
    node.state.Outweighs (receivedCert (signedCert [0,1] firstCertData.marshal)) := by
  obtain ⟨node,_,second,accepts,positive⟩ := Guarded.Machine.reaches
    (fun node : Node => node.state.view = 2 ∧ AcceptsCert transparent leaderOfTwo node.state
      (signedCert [0,1] firstCertData.marshal) (receivedCert (signedCert [0,1] firstCertData.marshal)) ∧
      ∀ i ∈ node.state.certReputations.keys, ∀ x ∈ node.state.certReputations.lookup i, 0 < x)
    (show ((nodeMachine transparent leaderOfTwo).replay (leaderRound ++ [.callback]) .init).any _ = true by
      decide +kernel)
  have outweigh := (distinct_signers_outweigh_iff accepts).1.mpr (by decide +kernel)
  exact ⟨node,second,outweigh _ _ accepts fun i x found => positive i ((mem_keys_iff _ i).mpr ⟨x,found⟩) x found⟩

/-- Node one alone makes a valid certificate by listing itself twice. -/
theorem repeated_signer_is_accepted : ∃ node,
    (nodeMachine transparent leaderOfTwo).Run .init (leaderRound ++ [.callback]) node ∧ node.state.view = 2 ∧
    AcceptsCert transparent leaderOfTwo node.state (signedCert [1,1] firstCertData.marshal)
      (receivedCert (signedCert [1,1] firstCertData.marshal)) ∧
    (∀ i ∈ node.state.certReputations.keys, ∀ x ∈ node.state.certReputations.lookup i, 0 < x) ∧
    ¬node.state.Outweighs (receivedCert (signedCert [1,1] firstCertData.marshal)) := by
  obtain ⟨node,run,facts⟩ := Guarded.Machine.reaches
    (fun node : Node => node.state.view = 2 ∧ AcceptsCert transparent leaderOfTwo node.state
      (signedCert [1,1] firstCertData.marshal) (receivedCert (signedCert [1,1] firstCertData.marshal)) ∧
      (∀ i ∈ node.state.certReputations.keys, ∀ x ∈ node.state.certReputations.lookup i, 0 < x) ∧
      ¬total node.state.certReputations / 2 < sumAt node.state.certReputations
        (receivedCert (signedCert [1,1] firstCertData.marshal)).getSigners.toFinset)
    (show ((nodeMachine transparent leaderOfTwo).replay (leaderRound ++ [.callback]) .init).any _ = true by
      decide +kernel)
  exact ⟨node,run,facts⟩

/-! ## Authenticity -/

section Authenticity

variable {p : Platform} {cfg : NodeConfig} {n : SyncHS} {wire : Bytes} {bc : BlockCertificate}

/-- All listed signatures of an accepted certificate verify exactly when none of them is
one that decodes and does not match. -/
theorem certificate_is_authentic_iff (accepts : AcceptsCert p cfg n wire bc) :
    (∀ id ∈ bc.getSigners, ∃ sig, bc.getSignatureFromID id = some sig ∧
      p.verify id bc.part.data sig = some true) ↔
    ∀ id ∈ bc.getSigners, ∀ sig ∈ bc.getSignatureFromID id, p.verify id bc.part.data sig ≠ some false := by
  obtain ⟨_,weighed,_⟩ := accepts.weighed
  constructor
  · intro authentic id member sig stored
    obtain ⟨sig',stored',verifies⟩ := authentic id member
    obtain rfl := Option.some.inj (stored.symm.trans stored')
    simp [verifies]
  · intro noMismatch id member
    obtain ⟨sig,stored,decodes⟩ := weighed.decodes id member
    refine ⟨sig,stored,?_⟩
    have unmatched := noMismatch id member sig stored
    cases answer : p.verify id bc.part.data sig with
    | none => exact absurd answer decodes
    | some ok =>
      cases ok with
      | false => exact absurd answer unmatched
      | true => rfl

end Authenticity

/-- The certificate of both nodes, over the data it carries. -/
theorem two_signatures_verify : ∃ node : Node, node.state.view = 2 ∧
    ∀ id ∈ (receivedCert (signedCert [0,1] firstCertData.marshal)).getSigners, ∃ sig,
      (receivedCert (signedCert [0,1] firstCertData.marshal)).getSignatureFromID id = some sig ∧
      transparent.verify id (receivedCert (signedCert [0,1] firstCertData.marshal)).part.data sig = some true := by
  obtain ⟨node,_,second,accepts⟩ := Guarded.Machine.reaches
    (fun node : Node => node.state.view = 2 ∧ AcceptsCert transparent leaderOfTwo node.state
      (signedCert [0,1] firstCertData.marshal) (receivedCert (signedCert [0,1] firstCertData.marshal)))
    (show ((nodeMachine transparent leaderOfTwo).replay (leaderRound ++ [.callback]) .init).any _ = true by
      decide +kernel)
  exact ⟨node,second,(certificate_is_authentic_iff accepts).mpr (by decide +kernel)⟩

/-- Signatures of both nodes over no data at all make a valid certificate. -/
theorem foreign_signatures_are_accepted : ∃ node,
    (nodeMachine transparent leaderOfTwo).Run .init (leaderRound ++ [.callback]) node ∧
    AcceptsCert transparent leaderOfTwo node.state (signedCert [0,1] []) (receivedCert (signedCert [0,1] [])) ∧
    1 ∈ (receivedCert (signedCert [0,1] [])).getSigners ∧
    ∀ sig ∈ (receivedCert (signedCert [0,1] [])).getSignatureFromID 1,
      transparent.verify 1 (receivedCert (signedCert [0,1] [])).part.data sig = some false := by
  obtain ⟨node,run,accepts⟩ := Guarded.Machine.reaches
    (fun node : Node => AcceptsCert transparent leaderOfTwo node.state (signedCert [0,1] [])
      (receivedCert (signedCert [0,1] [])))
    (show ((nodeMachine transparent leaderOfTwo).replay (leaderRound ++ [.callback]) .init).any _ = true by
      decide +kernel)
  exact ⟨node,run,accepts,by decide +kernel,by decide +kernel⟩

/-! ## What the voters signed

The data of a vote names the owner of the block. A certificate is rebuilt from the hash and
the view only, so its owner is zero. -/

/-- A vote that `voteForBlock` sends in a view for a block of a leader. -/
def CastFor (p : Platform) (view leader : Nat) (hash : Hash) (v : ProtoVote) : Prop :=
  ∃ cfg n ep n' jobs, voteForBlock p cfg n ep = some (n',⟨jobs,[.broadcast (.vote v)],[]⟩) ∧
    n.view = view ∧ ep.proposal.miner = leader ∧ ep.extBlock.getBlockHash p = hash

theorem CastFor.signed {p : Platform} {view leader : Nat} {hash : Hash} {v : ProtoVote}
    (cast : CastFor p view leader hash v) : v.data = some ⟨hash.bytes,view,leader⟩ ∧
      v.getSignature = p.sign v.getVoter (ProtoVoteData.marshal ⟨hash.bytes,view,leader⟩) := by
  obtain ⟨cfg,n,ep,n',jobs,votes,rfl,rfl,rfl⟩ := cast
  rw [voteForBlock_eq] at votes
  obtain ⟨-,effect⟩ := Prod.mk.inj (Option.some.inj votes)
  obtain ⟨-,sends,-⟩ := Effect.mk.inj effect
  obtain ⟨same,-⟩ := List.cons.inj sends
  obtain rfl := SyncHSMsg.vote.inj (Outgoing.broadcast.inj same)
  exact ⟨rfl,rfl⟩

theorem ProtoVoteData.marshal_injective : Function.Injective ProtoVoteData.marshal :=
  Function.LeftInverse.injective ProtoVoteData.unmarshal_marshal

/-- The data of a certificate that is built from votes for one block and sent on is what
the voters signed exactly when the leader is node zero; then all its signatures verify. -/
theorem certificate_data_is_signed_iff {p : Platform}
    (verifies : ∀ i data, p.verify i data (p.sign i data) = some true) {view leader : Nat} {hash : Hash}
    {votes : Map Nat ProtoVote} (order : List Nat) (nonempty : votes.keys.Nonempty)
    (cast : ∀ i v, votes.lookup i = some v → v.getVoter = i ∧ CastFor p view leader hash v) :
    ∃ bc, BlockCertificate.new.fromProto p (newCert (poolVotes votes order) hash view).toProto.1 = some bc ∧
      bc.getSigners.toFinset = votes.keys ∧
      ((∀ i v, votes.lookup i = some v → bc.part.data = marshalVoteData v.data) ↔ leader = 0) ∧
      (leader = 0 → ∀ id ∈ bc.getSigners, ∃ sig, bc.getSignatureFromID id = some sig ∧
        p.verify id bc.part.data sig = some true) := by
  have voters := poolVotes_voters votes order fun i v found => (cast i v found).1
  have member {v : ProtoVote} (pooled : v ∈ poolVotes votes order) : ∃ i, votes.lookup i = some v := by
    obtain ⟨i,_,found⟩ := List.mem_filterMap.mp pooled
    exact ⟨i,found⟩
  rw [newCert_toProto]
  refine ⟨_,if_neg (by simp),?_,?_,?_⟩
  · rw [← (traversal_enumerates votes order).2, ← voters]
    rfl
  · constructor
    · intro same
      obtain ⟨i,some⟩ := nonempty
      obtain ⟨v,found⟩ := (mem_keys_iff votes i).mp some
      have data := same i v found
      rw [(cast i v found).2.signed.1] at data
      exact (ProtoVoteData.mk.inj (ProtoVoteData.marshal_injective data)).2.2.symm
    · rintro rfl i v found
      rw [(cast i v found).2.signed.1]
      rfl
  · rintro rfl id listed
    obtain ⟨v,pooled,rfl⟩ := List.mem_map.mp listed
    have entries : ((poolVotes votes order).map ProtoVote.getVoter).zip
        ((poolVotes votes order).map ProtoVote.getSignature) =
        (poolVotes votes order).map fun v => (v.getVoter,v.getSignature) := List.zip_map' ..
    have stored := (zip_lookup ((poolVotes votes order).map fun v => (v.getVoter,v.getSignature)) ∅
      v.getVoter).mpr (Or.inl ⟨_,List.mem_map.mpr ⟨v,pooled,rfl⟩⟩)
    obtain ⟨sig,found⟩ := Option.isSome_iff_exists.mp stored
    refine ⟨sig,by rw [← found, ← entries]; rfl,?_⟩
    -- whichever entry the table kept for the signer, it is a signature over the data
    rcases mem_of_zip_lookup found with entry | absent
    · obtain ⟨w,pooled',same⟩ := List.mem_map.mp entry
      obtain ⟨voter,rfl⟩ := Prod.mk.inj same
      obtain ⟨i,counted⟩ := member pooled'
      rw [(cast i w counted).2.signed.2, voter]
      exact verifies _ _
    · contradiction

def firstBlockOf (leader : Nat) : ExtProposal :=
  ⟨{ firstOfTwo with miner := leader },candidateBlock transparent [[1]] genesisCert 1 [],.new⟩

def firstHash : Hash := (firstBlockOf 0).extBlock.getBlockHash transparent

def voteOn (i leader view : Nat) : ProtoVote :=
  signVote transparent (.complete 2 1 true .plain i)
    (voteDataFor transparent { SyncHS.init with view := view } (firstBlockOf leader))

theorem voteOn_cast (i leader view : Nat) : CastFor transparent view leader firstHash (voteOn i leader view) :=
  ⟨_,_,_,_,_,voteForBlock_eq ..,rfl,rfl,rfl⟩

def votesForZero : Map Nat ProtoVote := ((∅ : Map Nat ProtoVote).insert 0 (voteOn 0 0 1)).insert 1 (voteOn 1 0 1)

/-- The votes of both nodes for node zero's block. -/
theorem votes_for_node_zero_verify : ∃ bc,
    BlockCertificate.new.fromProto transparent (newCert (poolVotes votesForZero [0,1]) firstHash 1).toProto.1 = some bc ∧
    bc.getSigners.toFinset = {0,1} ∧
    ∀ id ∈ bc.getSigners, ∃ sig, bc.getSignatureFromID id = some sig ∧
      transparent.verify id bc.part.data sig = some true := by
  have cast (i : Nat) (v : ProtoVote) (found : votesForZero.lookup i = some v) :
      v.getVoter = i ∧ CastFor transparent 1 0 firstHash v := by
    rw [votesForZero, lookup_insert, lookup_insert] at found
    split at found
    next one =>
      obtain rfl := Option.some.inj found
      exact ⟨one.symm,voteOn_cast 1 0 1⟩
    next =>
      split at found
      next zero =>
        obtain rfl := Option.some.inj found
        exact ⟨zero.symm,voteOn_cast 0 0 1⟩
      next => contradiction
  obtain ⟨bc,decoded,signers,_,verify⟩ := certificate_data_is_signed_iff
    (fun i data => congrArg some (decide_eq_true rfl)) [0,1] (by decide +kernel) cast
  exact ⟨bc,decoded,signers.trans (by decide +kernel),verify rfl⟩

/-- A vote for a block of node one: the certificate is over other data than the vote. -/
theorem owner_is_lost : CastFor transparent 2 1 firstHash (voteOn 0 1 2) ∧
    (BlockCertificate.new.fromProto transparent (newCert [voteOn 0 1 2] firstHash 2).toProto.1).any (fun bc =>
      bc.part.data ≠ marshalVoteData (voteOn 0 1 2).data ∧ bc.getSigners = [0] ∧
      ∀ sig ∈ bc.getSignatureFromID 0, transparent.verify 0 bc.part.data sig = some false) = true :=
  ⟨voteOn_cast 0 1 2,by decide +kernel⟩

end ReputationSMR
