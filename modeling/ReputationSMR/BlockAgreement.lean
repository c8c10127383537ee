import ReputationSMR.HonestVotes
import ReputationSMR.Convictions

/-! Agreement on the acknowledged blocks. A follower's complete set has a forward of every
node but the leader, so two followers that acknowledge different blocks in one view need a
node that forwarded both. Nothing stops a node from doing so: `forward` passes on every
proposal of the leader, and a node that has its set stops reading forwards. In a view that
evidence resolves there is nothing to compare but the blocks of the view before. -/
namespace ReputationSMR

open Wire FiniteMap

def System.makes (s : System) (k : Nat) : List Bytes :=
  (s.signed.filter fun entry => entry.1 = k).map Prod.snd ++ (s.nodes k).pending.filterMap Job.draft

theorem System.mem_makes (s : System) (k : Nat) (data : Bytes) : data ∈ s.makes k ↔ s.made k data := by
  simp only [System.makes, System.made, List.mem_append, List.mem_map, List.mem_filter, List.mem_filterMap,
    decide_eq_true_eq]
  refine or_congr ⟨?_,fun signed => ⟨(k,data),⟨signed,rfl⟩,rfl⟩⟩ Iff.rfl
  rintro ⟨⟨_,_⟩,⟨signed,rfl⟩,rfl⟩
  exact signed

/-- The block hash of the forward is that of its header. -/
def HashesHeader (p : Platform) (fprop : Proposal) : Prop :=
  ∃ h ∈ fprop.getHeader, blockHashOf p fprop = some (p.doHash h.marshal)

instance (p : Platform) (fprop : Proposal) : Decidable (HashesHeader p fprop) :=
  inferInstanceAs (Decidable (∃ h ∈ fprop.getHeader, _))

/-- A node signs no second header of the height of an unresolved view, whether it forwards or
proposes, and the forwards it counts there are from other nodes than the leader, with the
height of the view and the hash of their header. -/
def SignsOnce (c : Cluster) (p : Platform) (resolved : Finset Nat) (s : System) (i : Nat) : Job → Prop
  | .forward prop => ∀ ep ∈ ExtProposal.fromProto p prop,
      checkProposal p (c.config i) (s.nodes i).state ep = some true → ∀ data ∈ s.makes i, ∀ h ∈ headerHeight data,
        h ∉ resolved → headerHeight (marshalHeader prop.getHeader) = some h → data = marshalHeader prop.getHeader
  | .round => (s.nodes i).state.leader = (c.config i).id →
      (extension p (c.config i) (s.nodes i).state .round).isSome → (s.nodes i).state.bc.head + 1 ∉ resolved →
        ∀ data ∈ s.makes i, headerHeight data ≠ some ((s.nodes i).state.bc.head + 1)
  | .proposeChannel fprop => (s.nodes i).state.view ∉ resolved → ∀ ep ∈ ExtProposal.fromProto p fprop,
      checkForward p (c.config i) (s.nodes i).state ep = some true →
        fprop.forwardSender ≠ (s.nodes i).state.leader ∧
        headerHeight (marshalHeader fprop.getHeader) = some (s.nodes i).state.view ∧ HashesHeader p fprop
  | _ => True

instance (c : Cluster) (p : Platform) (resolved : Finset Nat) (s : System) (i : Nat) (job : Job) :
    Decidable (SignsOnce c p resolved s i job) :=
  match job with
  | .forward prop => inferInstanceAs (Decidable (∀ ep ∈ ExtProposal.fromProto p prop, _))
  | .round => inferInstanceAs (Decidable (_ → _))
  | .proposeChannel fprop => inferInstanceAs (Decidable (_ ∉ resolved → ∀ ep ∈ ExtProposal.fromProto p fprop, _))
  | .maliPropseChannel _ | .voteChannel _ | .eqEvidenceChannel _ | .maliProEvidenceChannel _
  | .maliVoteEvidenceChannel _ | .proposed _ | .vote _ | .addCert _ _ | .sendEqProEvidence _ _
  | .sendMalivoteEvidence _ => isTrue trivial

/-- The block at the head is that of the proposal the node holds for the view, and a
follower has a complete set of forwards. -/
def HoldsBlock (p : Platform) (cfg : NodeConfig) (n : SyncHS) : Prop :=
  (∃ prop ∈ n.proposalByviewMap.lookup n.view, headerHeight (marshalHeader prop.getHeader) = some n.view ∧
    HashesHeader p prop ∧ ∃ b ∈ n.bc.blocksByHeight.lookup n.bc.head,
      blockHashOf p prop = some (b.getBlockHash p)) ∧
  (n.leader ≠ cfg.id → cfg.pMap.card ≤ size (row n.fpropMap n.view))

instance (p : Platform) (cfg : NodeConfig) (n : SyncHS) : Decidable (HoldsBlock p cfg n) :=
  inferInstanceAs (Decidable ((∃ prop ∈ n.proposalByviewMap.lookup n.view, _) ∧ _))

/-- The certificate is that of the block acknowledged in the view before, in the first view
that of the genesis block. -/
def CertifiesPrevious (p : Platform) (acked : List (Nat × ExtBlock)) (v : Nat) (cert : BlockCertificate) : Prop :=
  if v = 1 then (cert.getBlockInfo p).1 = (genesisCert.getBlockInfo p).1
  else ∃ entry ∈ acked, entry.1 + 1 = v ∧ (cert.getBlockInfo p).1 = entry.2.getBlockHash p

instance (p : Platform) (acked : List (Nat × ExtBlock)) (v : Nat) (cert : BlockCertificate) :
    Decidable (CertifiesPrevious p acked v cert) :=
  inferInstanceAs (Decidable (ite _ _ (∃ entry ∈ acked, _)))

/-- The block at the head is the empty block of the view, built as the handler of the
evidence builds it on the block before. -/
def HoldsEmptyBlock (p : Platform) (node : Node) : Prop :=
  ∃ cert ∈ node.state.certMap.lookup (node.state.view - 1), CertifiesPrevious p node.acked node.state.view cert ∧
    node.state.bc.blocksByHeight.lookup node.state.bc.head =
      some (createAnEmptyBlock p [] cert node.state.view emptyExtra)

instance (p : Platform) (node : Node) : Decidable (HoldsEmptyBlock p node) :=
  inferInstanceAs (Decidable (∃ cert ∈ node.state.certMap.lookup _, _))

/-- The views of `resolved` are resolved by evidence, at every honest node, and the others by
a proposal. -/
def OneBlock (c : Cluster) (p : Platform) (resolved : Finset Nat) (s : System) : SystemEvent → Prop
  | .work i index order => EachJob (SignsOnce c p resolved) s (.work i index order)
  | .callback i => (s.nodes i).state.advances →
      if (s.nodes i).state.view ∈ resolved then HoldsEmptyBlock p (s.nodes i)
      else HoldsBlock p (c.config i) (s.nodes i).state
  | _ => True

instance (c : Cluster) (p : Platform) (resolved : Finset Nat) (s : System) (e : SystemEvent) :
    Decidable (OneBlock c p resolved s e) :=
  match e with
  | .work i index order => inferInstanceAs (Decidable (EachJob (SignsOnce c p resolved) s (.work i index order)))
  | .callback i => inferInstanceAs (Decidable ((s.nodes i).state.advances → ite _ _ _))
  | .command _ _ | .connect _ | .deliver _ | .inject _ _ => isTrue trivial

/-! ## One header per height -/

def HeadersUnique (c : Cluster) (resolved : Finset Nat) (s : System) : Prop :=
  ∀ k ∈ c.honestNodes, ∀ data data', ∀ h ∉ resolved, s.made k data → s.made k data' → headerHeight data = some h →
    headerHeight data' = some h → data = data'

section Headers

variable {c : Cluster} {p : Platform} {resolved : Finset Nat} {s t : System} {e : SystemEvent}
  {trace : List SystemEvent}

theorem SignsOnce.only {k : Nat} {job : Job} {n' : SyncHS} {data data' : Bytes} {h : Nat}
    (once : SignsOnce c p resolved s k job) (unresolved : h ∉ resolved) (started : 1 ≤ (s.nodes k).state.view)
    (sincere : (c.config k).timerMode ≠ .equivocation ∧ (c.config k).timerMode ≠ .maliciousProposal)
    (signs : Signs p (c.config k) (s.nodes k).state n' job data) (height : headerHeight data = some h)
    (height' : headerHeight data' = some h)
    (other : s.made k data' ∨ Signs p (c.config k) (s.nodes k).state n' job data') : data' = data := by
  rcases signs.header started sincere height with
    ⟨prop,ep,rfl,decoded,checked,rfl⟩ | ⟨cert,rfl,leader,found,block,_,rfl⟩
  · rcases other with old | new
    · exact once ep decoded checked data' ((s.mem_makes k data').mpr old) h height' unresolved height
    · rcases new.header started sincere height' with ⟨prop',_,same,_,_,rfl⟩ | ⟨_,impossible,_⟩
      · rw [Job.forward.inj same]
      · contradiction
  · rw [headerHeight_header] at height
    rcases other with old | new
    · rw [← Option.some.inj height] at unresolved
      exact absurd (height'.trans height.symm) (once leader block unresolved data' ((s.mem_makes k data').mpr old))
    · rcases new.header started sincere height' with ⟨_,_,impossible,_⟩ | ⟨cert',_,_,found',_,_,rfl⟩
      · contradiction
      · rw [Option.some.inj (found.symm.trans found')]

theorem HeadersUnique.step (sincere : c.Sincere) (authentic : Authentic c p trace s) (unique : HeadersUnique c resolved s)
    (one : OneBlock c p resolved s e) (case : SystemCase c p s e t) : HeadersUnique c resolved t := by
  rcases case.moves with ⟨_,_,_,rfl⟩ | ⟨i,event,sends,moves⟩
  · exact unique
  intro k honest data data' h unresolved made made' height height'
  have started := (authentic.turns k honest).1
  rcases moves.made made with old | ⟨rfl,index,order,job,rfl,found,signs⟩
  · rcases moves.made made' with old' | ⟨rfl,index,order,job,rfl,found,signs⟩
    · exact unique k honest data data' h unresolved old old' height height'
    · have once : SignsOnce c p resolved s k job := EachJob.work one found
      exact once.only unresolved started (sincere k honest) signs height' height (Or.inl old)
  · have once : SignsOnce c p resolved s k job := EachJob.work one found
    refine (once.only unresolved started (sincere k honest) signs height height' ?_).symm
    rcases moves.made made' with old' | ⟨_,index',order',job',same,found',signs'⟩
    · exact Or.inl old'
    · obtain ⟨_,rfl,rfl⟩ := SystemEvent.work.inj same
      obtain rfl := Option.some.inj (found.symm.trans found')
      exact Or.inr signs'

end Headers

/-! ## Complete sets -/

section Nodes

variable {p : Platform} {cfg : NodeConfig} {node node' : Node} {event : NodeEvent} {sends : List Outgoing}

theorem NodeCase.forwardSets (case : NodeCase p cfg node event node' sends)
    (noInjection : cfg.timerMode ≠ .maliciousVote) (plain : node.state.maliciousVoteInject = false)
    (sets : ForwardSets p cfg node.state) : ForwardSets p cfg node'.state := by
  cases case with
  | connected => exact sets.quiet rfl
  | received _ => exact sets
  | commanded cmd n' jobs case => cases case; exact sets.quiet rfl
  | worked index order job n' jobs sends found case =>
    cases case.poll noInjection plain with
    | quiet _ _ _ same _ _ => exact sets.quiet same
    | proposes prop _ _ leads same _ => exact sets.proposes leads same
    | read fprop _ _ step => exact sets.read step
    | voted ep => exact sets.quiet rfl
  | calledBack n' acks case =>
    cases case with
    | kept _ _ => exact sets.quiet rfl
    | advanced _ _ _ _ => exact sets.advanced rfl rfl rfl

theorem ForwardStep.forwards {n n' : SyncHS} {effect : Effect} {fprop other : Proposal} {v sender : Nat}
    (step : ForwardStep p cfg n fprop n' effect) (counted : (row n'.fpropMap v).lookup sender = some other) :
    (row n.fpropMap v).lookup sender = some other ∨ v = n.view ∧ sender = other.forwardSender ∧ other = fprop ∧
      ∃ ep, Accepted p cfg n fprop ep := by
  have added {ep : ExtProposal} (accepted : Accepted p cfg n fprop ep)
      (counted : (row (n.addForward fprop).fpropMap v).lookup sender = some other) :
      (row n.fpropMap v).lookup sender = some other ∨ v = n.view ∧ sender = other.forwardSender ∧ other = fprop ∧
        ∃ ep, Accepted p cfg n fprop ep := by
    rw [lookup_addForward] at counted
    split at counted
    next here =>
      obtain rfl := Option.some.inj counted
      exact Or.inr ⟨here.1,here.2,rfl,ep,accepted⟩
    next => exact Or.inl counted
  cases step with
  | flagged _ | refused _ _ _ _ | conflict _ _ _ _ _ => exact Or.inl counted
  | counted ep accepted _ _ => exact added accepted counted
  | leads ep accepted _ _ _ => exact added accepted counted
  | follows ep accepted _ _ _ => exact added accepted counted

theorem NodeCase.forwards (case : NodeCase p cfg node event node' sends)
    (noInjection : cfg.timerMode ≠ .maliciousVote) (plain : node.state.maliciousVoteInject = false) {v sender : Nat}
    {fprop : Proposal} (counted : (row node'.state.fpropMap v).lookup sender = some fprop) :
    (row node.state.fpropMap v).lookup sender = some fprop ∨ v = node.state.view ∧ sender = fprop.forwardSender ∧
      ∃ index order ep, event = .work index order ∧ node.pending[index]? = some (.proposeChannel fprop) ∧
        Accepted p cfg node.state fprop ep := by
  cases case with
  | connected | received _ => exact Or.inl counted
  | commanded cmd n' jobs case => cases case; exact Or.inl counted
  | worked index order job n' jobs sends found case =>
    cases case.poll noInjection plain with
    | quiet _ _ _ same _ _ =>
      have forwards : n'.fpropMap = node.state.fpropMap := congrArg Poll.fpropMap same
      exact Or.inl (forwards ▸ counted)
    | proposes prop _ _ leads same _ =>
      have forwards : n'.fpropMap = node.state.fpropMap := (congrArg Poll.fpropMap same).trans rfl
      exact Or.inl (forwards ▸ counted)
    | read fprop' _ _ step =>
      refine (step.forwards counted).imp_right ?_
      rintro ⟨here,sender,rfl,ep,accepted⟩
      exact ⟨here,sender,index,order,ep,rfl,found,accepted⟩
    | voted ep => exact Or.inl counted
  | calledBack n' acks case => cases case <;> exact Or.inl counted

theorem NodeCase.acknowledges (case : NodeCase p cfg node event node' sends) {entry : Nat × ExtBlock}
    (acked : entry ∈ node'.acked) : entry ∈ node.acked ∨ event = .callback ∧ node.state.advances ∧
      entry.1 = node.state.view ∧ node.state.bc.blocksByHeight.lookup node.state.bc.head = some entry.2 := by
  cases case with
  | connected | received _ | commanded _ _ _ _ | worked _ _ _ _ _ _ _ _ => exact Or.inl acked
  | calledBack n' acks case =>
    rcases List.mem_append.mp acked with old | new
    · exact Or.inl old
    · obtain ⟨b,member,rfl⟩ := List.mem_map.mp new
      cases case with
      | kept _ _ => contradiction
      | advanced b' counters advances found =>
        obtain rfl := List.mem_singleton.mp member
        exact Or.inr ⟨rfl,advances,rfl,found⟩

theorem NodeCase.keeps_acked (case : NodeCase p cfg node event node' sends) : node.acked ⊆ node'.acked := by
  cases case with
  | connected | received _ | commanded _ _ _ _ | worked _ _ _ _ _ _ _ _ => exact List.Subset.refl _
  | calledBack n' acks case => exact List.subset_append_left _ _

end Nodes

/-! ## Resolved views -/

def EmptyOnPrevious (p : Platform) (acked : List (Nat × ExtBlock)) (v : Nat) (b : ExtBlock) : Prop :=
  ∃ cert, CertifiesPrevious p acked v cert ∧ b = createAnEmptyBlock p [] cert v emptyExtra

/-- Every block that an honest node has acknowledged in a resolved view is the empty block on
the one before. -/
def EmptyAcked (c : Cluster) (p : Platform) (resolved : Finset Nat) (s : System) : Prop :=
  ∀ i ∈ c.honestNodes, ∀ v ∈ resolved, ∀ b, (v,b) ∈ (s.nodes i).acked → EmptyOnPrevious p (s.nodes i).acked v b

section Resolved

variable {c : Cluster} {p : Platform} {resolved : Finset Nat} {s t : System} {e : SystemEvent} {v : Nat}
  {b b' : ExtBlock} {acked acked' : List (Nat × ExtBlock)}

theorem EmptyOnPrevious.mono (empty : EmptyOnPrevious p acked v b) (kept : acked ⊆ acked') :
    EmptyOnPrevious p acked' v b := by
  obtain ⟨cert,certifies,block⟩ := empty
  refine ⟨cert,?_,block⟩
  rw [CertifiesPrevious] at certifies ⊢
  split at certifies
  next first => rwa [if_pos first]
  next later =>
    obtain ⟨entry,member,same⟩ := certifies
    rw [if_neg later]
    exact ⟨entry,kept member,same⟩

/-- The header of an empty block has nothing of the certificate but its hash. -/
theorem createAnEmptyBlock_congr {cert cert' : BlockCertificate}
    (same : (cert.getBlockInfo p).1 = (cert'.getBlockInfo p).1) (height : Nat) (extra : Bytes) :
    createAnEmptyBlock p [] cert height extra = createAnEmptyBlock p [] cert' height extra := by
  rw [createAnEmptyBlock, createAnEmptyBlock, newHeader, newHeader, same]

theorem EmptyOnPrevious.agree (empty : EmptyOnPrevious p acked v b) (empty' : EmptyOnPrevious p acked' v b')
    (previous : ∀ w, w + 1 = v → ∀ b b', (w,b) ∈ acked → (w,b') ∈ acked' → b.getBlockHash p = b'.getBlockHash p) :
    b.getBlockHash p = b'.getBlockHash p := by
  obtain ⟨cert,certifies,rfl⟩ := empty
  obtain ⟨cert',certifies',rfl⟩ := empty'
  rw [CertifiesPrevious] at certifies certifies'
  refine congrArg _ (createAnEmptyBlock_congr ?_ v emptyExtra)
  split at certifies
  next first =>
    rw [if_pos first] at certifies'
    exact certifies.trans certifies'.symm
  next later =>
    rw [if_neg later] at certifies'
    obtain ⟨⟨w,block⟩,member,here,same⟩ := certifies
    obtain ⟨⟨w',block'⟩,member',here',same'⟩ := certifies'
    obtain rfl : w = w' := Nat.succ_injective (here.trans here'.symm)
    rw [same, same', previous w here block block' member member']

theorem EmptyAcked.step (empty : EmptyAcked c p resolved s) (one : OneBlock c p resolved s e)
    (case : SystemCase c p s e t) : EmptyAcked c p resolved t := by
  rcases case.moves with ⟨_,_,_,rfl⟩ | ⟨i,event,sends,moves⟩
  · exact empty
  refine moves.each (P := fun _ node => ∀ v ∈ resolved, ∀ b, (v,b) ∈ node.acked → EmptyOnPrevious p node.acked v b)
    empty fun honest v here b acked => ?_
  refine EmptyOnPrevious.mono ?_ moves.case.keeps_acked
  rcases moves.case.acknowledges acked with old | ⟨called,advances,now,head⟩
  · exact empty i honest v here b old
  · obtain rfl := moves.callback called
    obtain rfl : v = (s.nodes i).state.view := now
    have holds := one advances
    rw [if_pos here] at holds
    obtain ⟨cert,_,certifies,head'⟩ := holds
    exact ⟨cert,certifies,Option.some.inj (head.symm.trans head')⟩

end Resolved

/-! ## Signatures behind the others -/

/-- Node `k` has signed a header of the view with this hash. -/
def SignedBlock (p : Platform) (trace : List SystemEvent) (s : System) (k v : Nat) (hash : Hash) : Prop :=
  ∃ data, HasSigned p trace s k data ∧ headerHeight data = some v ∧ p.doHash data = hash

/-- The signatures behind an acknowledgement of node `i`: that of the leader and, when the
node follows, those of all other nodes. -/
structure Acknowledged (c : Cluster) (p : Platform) (trace : List SystemEvent) (s : System) (i v : Nat) (hash : Hash) :
    Prop where
  proposed : SignedBlock p trace s (leaderOf c.size v) v hash
  forwarded : leaderOf c.size v ≠ i → ∀ k < c.size, k ≠ leaderOf c.size v → SignedBlock p trace s k v hash

structure ForwardSigned (c : Cluster) (p : Platform) (trace : List SystemEvent) (s : System) (v sender : Nat)
    (fprop : Proposal) : Prop where
  inside : sender < c.size
  follows : sender ≠ leaderOf c.size v
  signed : ∀ hash, blockHashOf p fprop = some hash → SignedBlock p trace s sender v hash

structure BlocksSigned (c : Cluster) (p : Platform) (resolved : Finset Nat) (trace : List SystemEvent) (s : System) :
    Prop where
  plain : ∀ i ∈ c.honestNodes, (s.nodes i).state.maliciousVoteInject = false
  sets : ∀ i ∈ c.honestNodes, ForwardSets p (c.config i) (s.nodes i).state
  counted : ∀ i ∈ c.honestNodes, ∀ v ∉ resolved, ∀ sender fprop,
    (row (s.nodes i).state.fpropMap v).lookup sender = some fprop → ForwardSigned c p trace s v sender fprop
  acked : ∀ i ∈ c.honestNodes, ∀ v ∉ resolved, ∀ b, (v,b) ∈ (s.nodes i).acked →
    Acknowledged c p trace s i v (b.getBlockHash p)

theorem mem_of_complete {senders : Finset Nat} {size leader k : Nat} (leads : leader < size)
    (others : ∀ j ∈ senders, j < size ∧ j ≠ leader) (complete : size ≤ senders.card + 1) (inside : k < size)
    (follows : k ≠ leader) : k ∈ senders := by
  have within : senders ⊆ (Finset.range size).erase leader := fun j member =>
    Finset.mem_erase.mpr ⟨(others j member).2,Finset.mem_range.mpr (others j member).1⟩
  have card : ((Finset.range size).erase leader).card + 1 = size := by
    rw [Finset.card_erase_of_mem (Finset.mem_range.mpr leads), Finset.card_range]
    omega
  rw [Finset.eq_of_subset_of_card_le within (by omega)]
  exact Finset.mem_erase.mpr ⟨follows,Finset.mem_range.mpr inside⟩

section Runs

variable {c : Cluster} {p : Platform} {resolved : Finset Nat} {s t : System} {e : SystemEvent}
  {trace : List SystemEvent} {i k v : Nat} {hash : Hash}

theorem SignedBlock.step (signed : SignedBlock p trace s k v hash) (case : SystemCase c p s e t) :
    SignedBlock p (trace ++ [e]) t k v hash := by
  obtain ⟨data,signed,height,same⟩ := signed
  exact ⟨data,signed.step case,height,same⟩

theorem Acknowledged.step (acknowledged : Acknowledged c p trace s i v hash) (case : SystemCase c p s e t) :
    Acknowledged c p (trace ++ [e]) t i v hash :=
  ⟨acknowledged.proposed.step case,
    fun follower k inside follows => (acknowledged.forwarded follower k inside follows).step case⟩

theorem ForwardSigned.step {sender : Nat} {fprop : Proposal} (counted : ForwardSigned c p trace s v sender fprop)
    (case : SystemCase c p s e t) : ForwardSigned c p (trace ++ [e]) t v sender fprop :=
  ⟨counted.inside,counted.follows,fun hash same => (counted.signed hash same).step case⟩

theorem HashesHeader.hashed {prop : Proposal} (hashes : HashesHeader p prop) (found : blockHashOf p prop = some hash) :
    p.doHash (marshalHeader prop.getHeader) = hash := by
  obtain ⟨h,header,same⟩ := hashes
  rw [header]
  exact Option.some.inj (same.symm.trans found)

theorem SignsOnce.counted (regular : c.Regular) (authentic : Authentic c p trace s) (honest : i ∈ c.honestNodes)
    {fprop : Proposal} {ep : ExtProposal} (once : SignsOnce c p resolved s i (.proposeChannel fprop))
    (unresolved : (s.nodes i).state.view ∉ resolved) (member : .proposeChannel fprop ∈ (s.nodes i).pending)
    (accepted : Accepted p (c.config i) (s.nodes i).state fprop ep) :
    ForwardSigned c p trace s (s.nodes i).state.view fprop.forwardSender fprop := by
  obtain ⟨follows,height,hashes⟩ := once unresolved ep accepted.decoded accepted.checked
  have verified := (checkForward_signed accepted.decoded accepted.checked).2
  have listed := (signedBy_true verified).1
  rw [regular.keys i honest, Finset.mem_range] at listed
  rw [(authentic.turns i honest).2] at follows
  have signed := authentic.signedBy regular honest member (List.mem_cons_of_mem _ List.mem_cons_self) verified
  exact ⟨listed,follows,fun hash same => ⟨_,signed,height,hashes.hashed same⟩⟩

theorem BlocksSigned.acknowledges (regular : c.Regular) (card : ∀ i ∈ c.honestNodes, (c.config i).pMap.card + 1 = c.size)
    (authentic : Authentic c p trace s) (signed : BlocksSigned c p resolved trace s) (honest : i ∈ c.honestNodes)
    (unresolved : (s.nodes i).state.view ∉ resolved) (holds : HoldsBlock p (c.config i) (s.nodes i).state) {b : ExtBlock}
    (head : (s.nodes i).state.bc.blocksByHeight.lookup (s.nodes i).state.bc.head = some b) :
    Acknowledged c p trace s i (s.nodes i).state.view (b.getBlockHash p) := by
  obtain ⟨⟨prop,held,height,hashes,b',head',hash⟩,complete⟩ := holds
  obtain rfl := Option.some.inj (head.symm.trans head')
  have turn := (authentic.turns i honest).2
  refine ⟨⟨_,(authentic.known i honest _ prop held).1,height,hashes.hashed hash⟩,fun follower k inside follows => ?_⟩
  rw [← turn] at follower
  have full := complete (by rwa [regular.id i honest])
  have sender : k ∈ (row (s.nodes i).state.fpropMap (s.nodes i).state.view).keys := by
    refine mem_of_complete (Nat.mod_lt _ (by omega)) (fun j member => ?_) ?_ inside follows
    · obtain ⟨fprop,found⟩ := (mem_keys_iff _ _).mp member
      have counted := signed.counted i honest _ unresolved j fprop found
      exact ⟨counted.inside,counted.follows⟩
    · have := card i honest
      rw [size] at full
      omega
  obtain ⟨fprop,found⟩ := (mem_keys_iff _ _).mp sender
  -- all forwards of the set are of the block of the proposal that the node holds
  have same := (signed.sets i honest).first (by rwa [regular.id i honest]) k fprop found
  rw [Option.mem_def.mp held, Option.bind_some, hash] at same
  exact (signed.counted i honest _ unresolved k fprop found).signed _ same

theorem BlocksSigned.step (regular : c.Regular) (card : ∀ i ∈ c.honestNodes, (c.config i).pMap.card + 1 = c.size)
    (uninjected : c.Uninjected) (authentic : Authentic c p trace s) (signed : BlocksSigned c p resolved trace s)
    (one : OneBlock c p resolved s e) (case : SystemCase c p s e t) : BlocksSigned c p resolved (trace ++ [e]) t := by
  have moved := case
  rcases case.moves with ⟨_,_,_,rfl⟩ | ⟨i,event,sends,moves⟩
  · exact ⟨signed.plain,signed.sets,fun i honest v unresolved sender fprop found =>
      (signed.counted i honest v unresolved sender fprop found).step moved,
      fun i honest v unresolved b acked => (signed.acked i honest v unresolved b acked).step moved⟩
  refine ⟨moves.plain uninjected signed.plain,?_,?_,?_⟩
  · refine moves.each (P := fun k node => ForwardSets p (c.config k) node.state) signed.sets fun honest => ?_
    exact moves.case.forwardSets (uninjected i honest) (signed.plain i honest) (signed.sets i honest)
  · refine moves.each (P := fun _ node => ∀ v ∉ resolved, ∀ sender fprop,
      (row node.state.fpropMap v).lookup sender = some fprop → ForwardSigned c p (trace ++ [e]) t v sender fprop) ?_ ?_
    · exact fun k honest v unresolved sender fprop found =>
        (signed.counted k honest v unresolved sender fprop found).step moved
    · intro honest v unresolved sender fprop found
      rcases moves.case.forwards (uninjected i honest) (signed.plain i honest) found with
        old | ⟨rfl,rfl,index,order,ep,work,pending,accepted⟩
      · exact (signed.counted i honest v unresolved sender fprop old).step moved
      · obtain rfl := moves.works index order work
        have once : SignsOnce c p resolved s i (.proposeChannel fprop) := EachJob.work one pending
        exact (once.counted regular authentic honest unresolved (List.mem_of_getElem? pending) accepted).step moved
  · refine moves.each (P := fun k node => ∀ v ∉ resolved, ∀ b, (v,b) ∈ node.acked →
      Acknowledged c p (trace ++ [e]) t k v (b.getBlockHash p)) ?_ ?_
    · exact fun k honest v unresolved b acked => (signed.acked k honest v unresolved b acked).step moved
    · intro honest v unresolved b acked
      rcases moves.case.acknowledges acked with old | ⟨called,advances,here,head⟩
      · exact (signed.acked i honest v unresolved b old).step moved
      · obtain rfl := moves.callback called
        obtain rfl : v = (s.nodes i).state.view := here
        have holds := one advances
        rw [if_neg unresolved] at holds
        exact (signed.acknowledges regular card authentic honest unresolved holds head).step moved

/-- Two acknowledged blocks of an unresolved view: one honest node has signed the headers of both. -/
theorem Acknowledged.agree {j : Nat} {hash' : Hash} (run : (systemMachine c p).Run (System.start c) trace s)
    (unique : HeadersUnique c resolved s) (unresolved : v ∉ resolved) (honest : i ∈ c.honestNodes)
    (honest' : j ∈ c.honestNodes) (one : Acknowledged c p trace s i v hash) (other : Acknowledged c p trace s j v hash') :
    hash = hash' := by
  have same {k : Nat} (honest : k ∈ c.honestNodes) (block : SignedBlock p trace s k v hash)
      (block' : SignedBlock p trace s k v hash') : hash = hash' := by
    obtain ⟨data,signed,height,rfl⟩ := block
    obtain ⟨data',signed',height',rfl⟩ := block'
    rw [unique k honest data data' v unresolved (signed.made run honest) (signed'.made run honest) height height']
  by_cases leader : leaderOf c.size v ∈ c.honestNodes
  · exact same leader one.proposed other.proposed
  · have follows {k : Nat} (honest : k ∈ c.honestNodes) : leaderOf c.size v ≠ k := fun leads => leader (leads ▸ honest)
    have inside := ((c.mem_honestNodes i).mp honest).1
    exact same honest (one.forwarded (follows honest) i inside (follows honest).symm)
      (other.forwarded (follows honest') i inside (follows honest).symm)

/-- Any two honest nodes that acknowledge a block in a view acknowledge the same, in every run
that resolves each view in one way. In the views of `resolved` an honest node acknowledges
the empty block on the block it has acknowledged in the view before. In every other view no
honest node signs two headers, the forwards it counts are from other nodes than the leader,
with the height of the view and the hash of their header, and it acknowledges the block of
the proposal it holds for the view, as a follower with a complete set of forwards. -/
theorem acknowledged_blocks_agree (regular : c.Regular)
    (card : ∀ i ∈ c.honestNodes, (c.config i).pMap.card + 1 = c.size) (sincere : c.Sincere) (uninjected : c.Uninjected)
    (law : p.Unforgeable c.size)
    (run : ((systemMachine c p).restrict (OneBlock c p resolved)).Run (System.start c) trace s) {i j : Nat}
    (honest : i ∈ c.honestNodes) (honest' : j ∈ c.honestNodes) {v : Nat} {b b' : ExtBlock}
    (acked : (v,b) ∈ (s.nodes i).acked) (acked' : (v,b') ∈ (s.nodes j).acked) :
    b.getBlockHash p = b'.getBlockHash p := by
  obtain ⟨unique,signed,empty⟩ : HeadersUnique c resolved s ∧ BlocksSigned c p resolved trace s ∧
      EmptyAcked c p resolved s := by
    refine run.history (I := fun trace s => HeadersUnique c resolved s ∧ BlocksSigned c p resolved trace s ∧
      EmptyAcked c p resolved s) ⟨?_,?_,?_⟩ ?_
    · exact fun _ _ _ _ _ _ made => absurd made (by simp [System.made,System.start])
    · refine ⟨fun _ _ => rfl,fun i _ => (ForwardSets.initial p (c.config i)).quiet rfl,?_,?_⟩
      · exact fun _ _ _ _ _ _ found => by contradiction
      · exact fun _ _ _ _ _ acked => absurd acked List.not_mem_nil
    · exact fun _ _ _ _ _ acked => absurd acked List.not_mem_nil
    · rintro past s e t earlier ⟨unique,signed,empty⟩ admitted moved
      have authentic := run_authentic law regular earlier.unrestrict
      have case := System.step_cases moved
      exact ⟨unique.step sincere authentic admitted.2 case,
        signed.step regular card uninjected authentic admitted.2 case,empty.step admitted.2 case⟩
  -- a resolved view takes its parent from the view before, an unresolved one starts afresh
  induction v using Nat.strong_induction_on generalizing b b' with
  | _ v previous =>
    by_cases here : v ∈ resolved
    · refine (empty i honest v here b acked).agree (empty j honest' v here b' acked') fun w before b b' member member' => ?_
      exact previous w (by omega) member member'
    · exact (signed.acked i honest v here b acked).agree run.unrestrict unique here honest honest'
        (signed.acked j honest' v here b' acked')

end Runs

/-- A traitor who leads sends each node one version of its proposal, the forwards meet at
both and so does the evidence. -/
def resolvedByEvidence : List SystemEvent :=
  [.command 1 [1],.command 2 [1],.work 1 0 [],.work 2 0 [],.inject 1 (.prop (twoFaced [49])),
    .inject 2 (.prop (twoFaced [50])),.deliver 0,.deliver 0,.work 1 0 [],.work 2 0 [],.deliver 0,.deliver 0,
    .work 1 0 [],.work 1 0 [],.work 2 0 [],.work 2 0 [],.work 1 0 [],.work 2 0 [],.work 1 0 [],.work 2 0 [],
    .deliver 0,.deliver 0,.work 1 0 [],.work 2 0 [],.callback 1,.callback 2]

/-- Both honest nodes acknowledge the proposal that the traitor has forwarded too, and where
it leads and is found out both acknowledge the empty block. -/
theorem blocks_agree_with_traitor :
    (∃ s : System, ∃ b b', (1,b) ∈ (s.nodes 0).acked ∧ (1,b') ∈ (s.nodes 1).acked ∧
      b.getBlockHash transparent = b'.getBlockHash transparent) ∧
    ∃ s : System, ∃ b b', (1,b) ∈ (s.nodes 1).acked ∧ (1,b') ∈ (s.nodes 2).acked ∧
      b.getBlockHash transparent = b'.getBlockHash transparent := by
  have sincere (byzantine : Finset Nat) : (Cluster.complete 3 1 true .plain byzantine).Sincere := fun _ _ => ⟨nofun,nofun⟩
  have uninjected (byzantine : Finset Nat) : (Cluster.complete 3 1 true .plain byzantine).Uninjected := fun _ _ => nofun
  constructor
  · obtain ⟨s,run,⟨⟨_,b⟩,acked,rfl⟩,⟨_,b'⟩,acked',rfl⟩ := Guarded.Machine.reaches
      (fun s : System => (∃ entry ∈ (s.nodes 0).acked, entry.1 = 1) ∧ ∃ entry ∈ (s.nodes 1).acked, entry.1 = 1)
      (show (((systemMachine oneTraitor transparent).restrict (OneBlock oneTraitor transparent ∅)).replay
        traitorRound (System.start oneTraitor)).any _ = true by decide +kernel)
    exact ⟨s,b,b',acked,acked',acknowledged_blocks_agree (complete_regular _ _ _ _ _) complete_card (sincere _)
      (uninjected _) (transparent_unforgeable (by decide)) run (by decide) (by decide) acked acked'⟩
  · obtain ⟨s,run,⟨⟨_,b⟩,acked,rfl⟩,⟨_,b'⟩,acked',rfl⟩ := Guarded.Machine.reaches
      (fun s : System => (∃ entry ∈ (s.nodes 1).acked, entry.1 = 1) ∧ ∃ entry ∈ (s.nodes 2).acked, entry.1 = 1)
      (show (((systemMachine traitorLeads transparent).restrict (OneBlock traitorLeads transparent {1})).replay
        resolvedByEvidence (System.start traitorLeads)).any _ = true by decide +kernel)
    exact ⟨s,b,b',acked,acked',acknowledged_blocks_agree (complete_regular _ _ _ _ _) complete_card (sincere _)
      (uninjected _) (transparent_unforgeable (by decide)) run (by decide) (by decide) acked acked'⟩

/-- The traitor sends both versions of its proposal to both nodes, and each forwards both. -/
def bothForwarded : List SystemEvent :=
  [.command 1 [1],.command 2 [1],.work 1 0 [],.work 2 0 [],
    .inject 1 (.prop (twoFaced [49])),.inject 1 (.prop (twoFaced [50])),
    .inject 2 (.prop (twoFaced [49])),.inject 2 (.prop (twoFaced [50])),
    .deliver 0,.deliver 0,.deliver 0,.deliver 0,.work 1 0 [],.work 1 0 [],.work 2 0 [],.work 2 0 []]

/-- Node one reads the two forwards of the first version and node two those of the second;
their two votes, one for each version, certify both. -/
def eachReadsOne : List SystemEvent :=
  [.deliver 0,.deliver 0,.deliver 0,.deliver 0,.work 1 0 [],.work 1 1 [],.work 1 2 [],.work 2 1 [],.work 2 2 [],
    .work 2 2 [],.deliver 0,.deliver 0,.work 1 2 [1],.work 1 2 [1,2],.work 2 2 [2],.work 2 2 [1,2],.work 1 2 [],
    .work 2 2 []]

theorem equivocation_splits_blocks : ∃ trace s,
    ((systemMachine traitorLeads transparent).restrict fun s e =>
      Synchronous traitorLeads s e ∧ ByzantineMinority traitorLeads s).Run (System.start traitorLeads) trace s ∧
    ByzantineMinority traitorLeads s ∧ 1 ∈ traitorLeads.honestNodes ∧ 2 ∈ traitorLeads.honestNodes ∧
    ∃ entry ∈ (s.nodes 1).acked, ∃ entry' ∈ (s.nodes 2).acked, entry.1 = 1 ∧ entry'.1 = 1 ∧
      entry.2.getBlockHash transparent ≠ entry'.2.getBlockHash transparent := by
  obtain ⟨s,run,minority,differ⟩ := Guarded.Machine.reaches
    (fun s : System => ByzantineMinority traitorLeads s ∧ ∃ entry ∈ (s.nodes 1).acked,
      ∃ entry' ∈ (s.nodes 2).acked, entry.1 = 1 ∧ entry'.1 = 1 ∧
        entry.2.getBlockHash transparent ≠ entry'.2.getBlockHash transparent)
    (show (((systemMachine traitorLeads transparent).restrict fun s e =>
      Synchronous traitorLeads s e ∧ ByzantineMinority traitorLeads s).replay
      (bothForwarded ++ eachReadsOne ++ [.callback 1,.callback 2]) (System.start traitorLeads)).any _ = true
        by decide +kernel)
  exact ⟨_,s,run,minority,by decide,by decide,differ⟩

end ReputationSMR
