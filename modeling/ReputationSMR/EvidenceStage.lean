import ReputationSMR.ChainSteps

/-! Equivocation evidence among the forwards and the votes of its view. Three handlers share
the head and the certificates: the last forward of a set appends the block, the vote that
crosses the threshold certifies the view, and evidence appends an empty block to the head if
that is certified at the moment. The first two commute. What the evidence does depends on
which of the two have happened. -/
namespace ReputationSMR

open Wire FiniteMap

/-! ## The shared part of the state -/

structure Settlement where
  bc : BlockChain
  certMap : Map Nat BlockCertificate
  proposalMap : BehaviourMap
  equiproposalMap : BehaviourMap

def SyncHS.settlement (n : SyncHS) : Settlement := ⟨n.bc,n.certMap,n.proposalMap,n.equiproposalMap⟩

/-- What the messages of a view are about: its leader and the block of the forwards. -/
structure Agenda where
  view : Nat
  leader : Nat
  block : ExtBlock

def forwardsIn (jobs : List Job) : List Proposal := jobs.filterMap Job.heldForward

def votesIn (jobs : List Job) : List ProtoVote := jobs.filterMap Job.heldVote

theorem forwardsIn_append (jobs rest : List Job) : forwardsIn (jobs ++ rest) = forwardsIn jobs ++ forwardsIn rest :=
  List.filterMap_append

theorem votesIn_append (jobs rest : List Job) : votesIn (jobs ++ rest) = votesIn jobs ++ votesIn rest :=
  List.filterMap_append

namespace Agenda

variable (p : Platform) (A : Agenda)

def commit (L : Settlement) : Settlement :=
  { L with
    bc := L.bc.extend p A.block
    proposalMap := SyncHS.recordLeader L.proposalMap A.view A.leader }

def certify (cert : BlockCertificate) (L : Settlement) : Settlement :=
  { L with certMap := L.certMap.insert A.view cert }

def settle (committed : Bool) (cert : Option BlockCertificate) (L : Settlement) : Settlement :=
  let L := if committed then A.commit p L else L
  cert.elim L fun cert => A.certify cert L

/-- An empty block on top of a head with the certificate. -/
def replace (cert : BlockCertificate) (L : Settlement) : Settlement :=
  let exemptyblock := createAnEmptyBlock p [] cert (L.bc.head + 1) emptyExtra
  { L with
    bc := L.bc.extend p exemptyblock
    certMap := L.certMap.insert A.view (emptyCertificate (exemptyblock.getBlockHash p) A.view)
    equiproposalMap := SyncHS.recordLeader L.equiproposalMap A.view A.leader }

/-- The evidence; without a certificate of the head it is lost. -/
def convict (L : Settlement) : Settlement :=
  if at2 L.equiproposalMap A.view A.leader = some 1 then L
  else (L.certMap.lookup L.bc.head).elim L fun cert => A.replace p cert L

/-- The evidence finds the set of forwards complete or not, and the certificate there or not;
the rest is settled on top. -/
def outcome (committed certified : Bool) (cert : BlockCertificate) (L : Settlement) : Settlement :=
  A.settle p (!committed) (if certified then none else some cert)
    (A.convict p (A.settle p committed (if certified then some cert else none) L))

theorem settle_settle {c c' : Bool} {d d' : Option BlockCertificate} (once : (c && c') = false)
    (once' : d.isSome → d' = none) (L : Settlement) :
    A.settle p c' d' (A.settle p c d L) = A.settle p (c || c') (d.or d') L := by
  cases d with
  | none => cases c <;> cases c' <;> first | rfl | contradiction
  | some cert =>
    rw [once' rfl]
    cases c <;> cases c' <;> first | rfl | contradiction

/-- The view in which nothing has happened yet, on a chain that ends at its head. -/
structure Ordinary (L : Settlement) : Prop where
  headed : (L.certMap.lookup L.bc.head).isSome
  view : A.view = L.bc.head + 1
  height : A.block.getHeight = L.bc.head + 1
  top : L.bc.blocksByHeight.lookup (L.bc.head + 2) = none
  uncertified : L.certMap.lookup A.view = none
  unrecorded : at2 L.equiproposalMap A.view A.leader ≠ some 1

/-- What is compared after the view: the chain with its head, the certificates, and the records of the
view. -/
structure Agrees (view : Nat) (L L' : Settlement) : Prop where
  bc : L.bc = L'.bc
  certMap : L.certMap = L'.certMap
  proposalMap : row L.proposalMap view = row L'.proposalMap view
  equiproposalMap : row L.equiproposalMap view = row L'.equiproposalMap view

section Ordinary

variable {p A} {L : Settlement} {committed certified : Bool} {cert cert' : BlockCertificate}

theorem convict_found (unrecorded : at2 L.equiproposalMap A.view A.leader ≠ some 1)
    (found : L.certMap.lookup L.bc.head = some cert) : A.convict p L = A.replace p cert L := by
  rw [convict, if_neg unrecorded, found]
  rfl

theorem convict_lost (missing : L.certMap.lookup L.bc.head = none) : A.convict p L = L := by
  rw [convict, missing]
  exact ite_self L

/-- What each stage comes to: evidence between the forwards and the votes is lost, and evidence after
both finds the certificate that the votes made, otherwise that of the old head. -/
theorem Ordinary.outcomes (ordinary : A.Ordinary L) : ∃ old, ∀ cert,
    A.outcome p false false cert L = A.certify cert (A.commit p (A.replace p old L)) ∧
    A.outcome p false true cert L = A.commit p (A.replace p old (A.certify cert L)) ∧
    A.outcome p true false cert L = A.certify cert (A.commit p L) ∧
    A.outcome p true true cert L = A.replace p cert (A.certify cert (A.commit p L)) := by
  obtain ⟨old,found⟩ := Option.isSome_iff_exists.mp ordinary.headed
  refine ⟨old,fun cert => ⟨?_,?_,?_,?_⟩⟩
  · have convicted := convict_found (p := p) ordinary.unrecorded found
    exact congrArg (fun L => A.certify cert (A.commit p L)) convicted
  · have other : A.view ≠ L.bc.head := by
      rw [ordinary.view]
      exact Nat.succ_ne_self _
    have found' : (A.certify cert L).certMap.lookup L.bc.head = some old :=
      (lookup_insert _ _ _ _).trans ((if_neg other.symm).trans found)
    have convicted : A.convict p (A.certify cert L) = _ := convict_found ordinary.unrecorded found'
    exact congrArg (A.commit p) convicted
  · have missing : (A.commit p L).certMap.lookup (L.bc.head + 1) = none := ordinary.view ▸ ordinary.uncertified
    exact congrArg (A.certify cert) (convict_lost missing)
  · have found' : (A.certify cert (A.commit p L)).certMap.lookup (L.bc.head + 1) = some cert :=
      (lookup_insert _ _ _ _).trans (if_pos ordinary.view.symm)
    have convicted : A.convict p (A.certify cert (A.commit p L)) = _ := convict_found ordinary.unrecorded found'
    exact convicted

theorem Ordinary.outcome_certified (ordinary : A.Ordinary L) (committed : Bool) (cert : BlockCertificate) : ∃ hash,
    (A.outcome p committed true cert L).certMap.lookup A.view = some (emptyCertificate hash A.view) := by
  obtain ⟨old,outcomes⟩ := ordinary.outcomes (p := p)
  obtain ⟨_,second,_,fourth⟩ := outcomes cert
  cases committed
  · rw [second]
    exact ⟨_,(lookup_insert _ _ _ _).trans (if_pos rfl)⟩
  · rw [fourth]
    exact ⟨_,(lookup_insert _ _ _ _).trans (if_pos rfl)⟩

theorem outcome_uncertified : (A.outcome p committed false cert L).certMap.lookup A.view = some cert :=
  (lookup_insert _ _ _ _).trans (if_pos rfl)

theorem Ordinary.outcome_recorded (ordinary : A.Ordinary L) (committed : Bool) (cert : BlockCertificate) :
    at2 (A.outcome p committed false cert L).equiproposalMap A.view A.leader = some 1 ↔ committed = false := by
  obtain ⟨old,outcomes⟩ := ordinary.outcomes (p := p)
  obtain ⟨first,_,third,_⟩ := outcomes cert
  cases committed
  · rw [first]
    refine iff_of_true ((at2_recordLeader _ _ _ _ _).trans ?_) rfl
    rw [if_neg ordinary.unrecorded, if_pos rfl, if_pos rfl]
  · rw [third]
    exact iff_of_false ordinary.unrecorded Bool.noConfusion

theorem Ordinary.outcome_top (ordinary : A.Ordinary L) (committed : Bool) (cert : BlockCertificate) :
    ((A.outcome p committed true cert L).bc.blocksByHeight.lookup (L.bc.head + 2)).isSome ↔ committed = true := by
  obtain ⟨old,outcomes⟩ := ordinary.outcomes (p := p)
  obtain ⟨_,second,_,fourth⟩ := outcomes cert
  have above : L.bc.head + 2 ≠ L.bc.head + 1 := (Nat.lt_succ_self _).ne'
  cases committed
  · have missing : (A.outcome p false true cert L).bc.blocksByHeight.lookup (L.bc.head + 2) = none := by
      rw [second]
      refine (lookup_insert _ _ _ _).trans ((if_neg (ordinary.height ▸ above)).trans ?_)
      exact (lookup_insert _ _ _ _).trans ((if_neg above).trans ordinary.top)
    rw [missing]
    exact iff_of_false Bool.false_ne_true Bool.false_ne_true
  · rw [fourth]
    exact iff_of_true (Option.isSome_iff_exists.mpr ⟨_,(lookup_insert _ _ _ _).trans (if_pos rfl)⟩) rfl

/-- Where the evidence replaces the certificate of the votes, only the block that this is for matters. -/
theorem Ordinary.outcome_congr (ordinary : A.Ordinary L) (info : cert.getBlockInfo p = cert'.getBlockInfo p) :
    A.outcome p committed true cert L = A.outcome p committed true cert' L := by
  obtain ⟨old,outcomes⟩ := ordinary.outcomes (p := p)
  obtain ⟨_,second,_,fourth⟩ := outcomes cert
  obtain ⟨_,second',_,fourth'⟩ := outcomes cert'
  have block (height : Nat) : createAnEmptyBlock p [] cert height emptyExtra =
      createAnEmptyBlock p [] cert' height emptyExtra := by
    rw [createAnEmptyBlock, createAnEmptyBlock, newHeader, newHeader, info]
  cases committed
  · rw [second, second']
    simp only [commit, replace, certify, Finmap.insert_insert]
  · rw [fourth, fourth']
    simp only [commit, replace, certify, Finmap.insert_insert, block]

/-- Two outcomes agree exactly when the evidence came at the same stage, and the certificate of the
votes was replaced or is the same. -/
theorem Ordinary.outcome_agrees (ordinary : A.Ordinary L) {committed' certified' : Bool}
    (voted : ∀ hash view, cert ≠ emptyCertificate hash view) (voted' : ∀ hash view, cert' ≠ emptyCertificate hash view)
    (info : cert.getBlockInfo p = cert'.getBlockInfo p) :
    Agrees A.view (A.outcome p committed certified cert L) (A.outcome p committed' certified' cert' L) ↔
      (committed = committed' ∧ certified = certified') ∧ (certified = true ∨ cert = cert') := by
  constructor
  · intro agrees
    have stored := congrArg (fun certs => certs.lookup A.view) agrees.certMap
    have recorded : at2 (A.outcome p committed certified cert L).equiproposalMap A.view A.leader =
        at2 (A.outcome p committed' certified' cert' L).equiproposalMap A.view A.leader := by
      rw [at2_eq_row, at2_eq_row, agrees.equiproposalMap]
    cases certified <;> cases certified'
    · simp only [outcome_uncertified] at stored
      refine ⟨⟨?_,rfl⟩,Or.inr (Option.some.inj stored)⟩
      have stage := ordinary.outcome_recorded (p := p) committed cert
      rw [recorded, ordinary.outcome_recorded] at stage
      cases committed <;> cases committed' <;> simp_all
    · obtain ⟨hash,empty⟩ := ordinary.outcome_certified (p := p) committed' cert'
      simp only [outcome_uncertified, empty] at stored
      exact absurd (Option.some.inj stored) (voted _ _)
    · obtain ⟨hash,empty⟩ := ordinary.outcome_certified (p := p) committed cert
      simp only [outcome_uncertified, empty] at stored
      exact absurd (Option.some.inj stored).symm (voted' _ _)
    · have stage := ordinary.outcome_top (p := p) committed cert
      rw [agrees.bc, ordinary.outcome_top] at stage
      exact ⟨⟨Bool.eq_iff_iff.mpr stage.symm,rfl⟩,Or.inl rfl⟩
  · rintro ⟨⟨rfl,rfl⟩,replaced | rfl⟩
    · subst replaced
      rw [ordinary.outcome_congr info]
      exact ⟨rfl,rfl,rfl,rfl⟩
    · exact ⟨rfl,rfl,rfl,rfl⟩

end Ordinary

end Agenda

/-! ## Delivery -/

/-- The handler of the message runs, and the certificate that it hands to a goroutine is
stored. -/
def SyncHS.deliver (p : Platform) (cfg : NodeConfig) (order : List Nat) (n : SyncHS) (job : Job) : Option SyncHS :=
  (runJob p cfg n order job).map fun (n,effect) =>
    (effect.jobs.filterMap Job.storedCert).foldl (fun n entry => n.addCert entry.2 entry.1) n

/-- The messages are handled in the order of the list; `none` after a panic. -/
def SyncHS.deliverAll (p : Platform) (cfg : NodeConfig) (order : List Nat) (n : SyncHS) (jobs : List Job) :
    Option SyncHS :=
  jobs.foldlM (SyncHS.deliver p cfg order) n

/-- The voters carry more than half of the reputation of the view. -/
def SyncHS.heavy (n : SyncHS) (voters : Finset Nat) : Prop := n.getCertBenchMark n.view < n.weight voters

instance (n : SyncHS) (voters : Finset Nat) : Decidable (n.heavy voters) := inferInstanceAs (Decidable (_ < _))

/-- The pool with which the votes cross half of the reputation. -/
def SyncHS.crossing (n : SyncHS) : Map Nat ProtoVote → List ProtoVote → Option (Map Nat ProtoVote)
  | _, [] => none
  | pool, w :: vs =>
    if n.heavy (pool.insert w.getVoter w).keys then some (pool.insert w.getVoter w)
    else n.crossing (pool.insert w.getVoter w) vs

def SyncHS.closed (n : SyncHS) : Prop := (n.receivedVotes.lookup n.view).isSome ∧ n.certified n.view

instance (n : SyncHS) : Decidable n.closed := inferInstanceAs (Decidable (_ ∧ _))

/-- The certificate that the votes make; later votes do not change it. -/
def SyncHS.certOf (p : Platform) (order : List Nat) (d : ProtoVoteData) (n : SyncHS) (vs : List ProtoVote) :
    Option BlockCertificate :=
  if n.closed then none
  else (n.crossing (n.pool n.view) vs).map fun pool => newCert (poolVotes pool order) (p.toHash d.blockHash) d.view

/-- Forwards of one block that complete the set of a follower when all have arrived. -/
structure ForwardsDue (p : Platform) (cfg : NodeConfig) (A : Agenda) (fs : List Proposal) (n : SyncHS) : Prop where
  view : n.view = A.view
  leader : n.leader = A.leader
  follower : cfg.id ≠ A.leader
  whole : p.copies A.block.parentField
  unflagged : n.equivocatingProposalInject = false
  checked : ∀ f ∈ fs, ∃ ep, ExtProposal.fromProto p f = some ep ∧ ep.extBlock = A.block ∧
    checkForward p cfg n ep = some true
  senders : (fs.map Proposal.forwardSender).Nodup
  fresh : ∀ f ∈ fs, f.forwardSender ∉ row n.fpropMap A.view
  complete : fs ≠ [] → size (row n.fpropMap A.view) + fs.length = cfg.pMap.card
  reference : ∀ x, n.proposalByviewMap.lookup A.view = some x → ∃ ep, ExtProposal.fromProto p x = some ep ∧
    ep.extBlock.getBlockHash p = A.block.getBlockHash p

/-- Valid votes with the same data, of voters that are not in the pool. -/
structure VotesDue (p : Platform) (cfg : NodeConfig) (A : Agenda) (d : ProtoVoteData) (vs : List ProtoVote)
    (n : SyncHS) : Prop where
  view : n.view = A.view
  leader : n.leader = A.leader
  owner : d.owner = A.leader
  whole : p.copies d.blockHash
  data : ∀ w ∈ vs, w.data = some d
  body : ∀ w ∈ vs, w.body.isSome
  known : ∀ w ∈ vs, w.getVoter ∈ cfg.nodeKeyMap
  valid : ∀ w ∈ vs, w.getVoter = cfg.id ∨ isVoteValid p cfg w = some true
  voters : (vs.map ProtoVote.getVoter).Nodup
  fresh : ∀ w ∈ vs, w.getVoter ∉ n.pool A.view
  pooled : ∀ i ∈ (n.pool A.view).keys, ((row n.reputationMap A.view).lookup i).isSome
  rated : ∀ w ∈ vs, ((row n.reputationMap A.view).lookup w.getVoter).isSome

section Deliver

variable {p : Platform} {cfg : NodeConfig} {order : List Nat} {A : Agenda} {d : ProtoVoteData} {n n' : SyncHS}

theorem ForwardsDue.perm {fs fs' : List Proposal} (due : ForwardsDue p cfg A fs n) (perm : fs.Perm fs') :
    ForwardsDue p cfg A fs' n where
  view := due.view
  leader := due.leader
  follower := due.follower
  whole := due.whole
  unflagged := due.unflagged
  checked f member := due.checked f (perm.mem_iff.mpr member)
  senders := (perm.map _).nodup_iff.mp due.senders
  fresh f member := due.fresh f (perm.mem_iff.mpr member)
  complete nonempty := by
    rw [← perm.length_eq]
    refine due.complete ?_
    rintro rfl
    exact nonempty perm.nil_eq.symm
  reference := due.reference

theorem VotesDue.perm {vs vs' : List ProtoVote} (due : VotesDue p cfg A d vs n) (perm : vs.Perm vs') :
    VotesDue p cfg A d vs' n where
  view := due.view
  leader := due.leader
  owner := due.owner
  whole := due.whole
  data w member := due.data w (perm.mem_iff.mpr member)
  body w member := due.body w (perm.mem_iff.mpr member)
  known w member := due.known w (perm.mem_iff.mpr member)
  valid w member := due.valid w (perm.mem_iff.mpr member)
  voters := (perm.map _).nodup_iff.mp due.voters
  fresh w member := due.fresh w (perm.mem_iff.mpr member)
  pooled := due.pooled
  rated w member := due.rated w (perm.mem_iff.mpr member)

theorem ForwardsDue.framed {fs : List Proposal} (due : ForwardsDue p cfg A fs n) (view : n'.view = n.view)
    (leader : n'.leader = n.leader) (flag : n'.equivocatingProposalInject = n.equivocatingProposalInject)
    (forwards : n'.fpropMap = n.fpropMap) (references : n'.proposalByviewMap = n.proposalByviewMap)
    (checks : ∀ ep, checkProposal p cfg n ep = some true → checkProposal p cfg n' ep = some true) :
    ForwardsDue p cfg A fs n' where
  view := view.trans due.view
  leader := leader.trans due.leader
  follower := due.follower
  whole := due.whole
  unflagged := flag.trans due.unflagged
  checked f member := by
    obtain ⟨ep,decoded,block,checked⟩ := due.checked f member
    exact ⟨ep,decoded,block,checkForward_of_checkProposal (checks ep) checked⟩
  senders := due.senders
  fresh := forwards ▸ due.fresh
  complete := forwards ▸ due.complete
  reference := references ▸ due.reference

theorem VotesDue.framed {vs : List ProtoVote} (due : VotesDue p cfg A d vs n) (view : n'.view = n.view)
    (leader : n'.leader = n.leader) (pool : n'.receivedVotes = n.receivedVotes)
    (reputations : n'.reputationMap = n.reputationMap) : VotesDue p cfg A d vs n' where
  view := view.trans due.view
  leader := leader.trans due.leader
  owner := due.owner
  whole := due.whole
  data := due.data
  body := due.body
  known := due.known
  valid := due.valid
  voters := due.voters
  fresh := by
    rw [SyncHS.pool, pool]
    exact due.fresh
  pooled := by
    rw [SyncHS.pool, pool, reputations]
    exact due.pooled
  rated := reputations ▸ due.rated

/-- What votes have come to: the certificate they made is that of the whole list if there is one, and no
second one follows. -/
structure Polled (p : Platform) (order : List Nat) (d : ProtoVoteData) (n : SyncHS) (xs : List ProtoVote)
    (n' : SyncHS) : Prop where
  append : ∀ vs, n.certOf p order d (xs ++ vs) = (n.certOf p order d xs).or (n'.certOf p order d vs)
  once : (n.certOf p order d xs).isSome → ∀ vs, n'.certOf p order d vs = none

theorem certOf_nil : n.certOf p order d [] = none := by
  rw [SyncHS.certOf]
  split <;> rfl

theorem crossing_congr (view : n'.view = n.view) (reputations : n'.reputationMap = n.reputationMap) :
    n'.crossing = n.crossing := by
  have heavy : n'.heavy = n.heavy := by
    funext voters
    simp only [SyncHS.heavy, SyncHS.getCertBenchMark, SyncHS.weight, view, reputations]
  funext votes vs
  induction vs generalizing votes with
  | nil => rfl
  | cons w vs ih => simp only [SyncHS.crossing, heavy, ih]

theorem Polled.framed (view : n'.view = n.view) (pool : n'.receivedVotes = n.receivedVotes)
    (latch : n'.isCertified = n.isCertified) (reputations : n'.reputationMap = n.reputationMap) :
    Polled p order d n [] n' := by
  constructor
  · intro vs
    have closed : n.closed ↔ n'.closed := by
      rw [SyncHS.closed, SyncHS.closed, SyncHS.certified, SyncHS.certified, view, pool, latch]
    rw [certOf_nil, Option.none_or, List.nil_append, SyncHS.certOf, SyncHS.certOf, crossing_congr view reputations,
      SyncHS.pool, SyncHS.pool, pool, view]
    exact if_congr closed rfl rfl
  · intro cast
    rw [certOf_nil] at cast
    contradiction

theorem Polled.trans {xs ys : List ProtoVote} {m : SyncHS} (first : Polled p order d n xs m)
    (second : Polled p order d m ys n') : Polled p order d n (xs ++ ys) n' := by
  constructor
  · intro vs
    rw [List.append_assoc, first.append, second.append, first.append ys, Option.or_assoc]
  · intro made vs
    rw [first.append] at made
    cases early : n.certOf p order d xs with
    | none =>
      rw [early, Option.none_or] at made
      exact second.once made vs
    | some cert =>
      have none' := first.once (by rw [early]; rfl) (ys ++ vs)
      rw [second.append, Option.or_eq_none_iff] at none'
      exact none'.2

structure Delivered (p : Platform) (cfg : NodeConfig) (order : List Nat) (A : Agenda) (d : ProtoVoteData)
    (fs : List Proposal) (vs xs : List ProtoVote) (committed : Bool) (n n' : SyncHS) : Prop where
  forwards : ForwardsDue p cfg A fs n'
  votes : VotesDue p cfg A d vs n'
  ballot : Polled p order d n xs n'
  settlement : n'.settlement = A.settle p committed (n.certOf p order d xs) n.settlement

theorem Delivered.trans {fs fs' : List Proposal} {vs vs' xs ys : List ProtoVote} {c c' : Bool} {m : SyncHS}
    (first : Delivered p cfg order A d fs vs xs c n m) (second : Delivered p cfg order A d fs' vs' ys c' m n')
    (once : (c && c') = false) : Delivered p cfg order A d fs' vs' (xs ++ ys) (c || c') n n' where
  forwards := second.forwards
  votes := second.votes
  ballot := first.ballot.trans second.ballot
  settlement := by
    rw [second.settlement, first.settlement, first.ballot.append]
    exact A.settle_settle p once (fun made => first.ballot.once made ys) n.settlement

/-! ### Forwards -/

theorem ForwardsDue.accepts {f : Proposal} {fs : List Proposal} (due : ForwardsDue p cfg A (f :: fs) n) :
    ∃ ep, Accepted p cfg n f ep ∧ AgreesWithFirst p n ep ∧ ep.extBlock = A.block := by
  obtain ⟨ep,decoded,block,checked⟩ := due.checked f List.mem_cons_self
  refine ⟨ep,⟨due.unflagged,decoded,checked⟩,?_,block⟩
  rw [AgreesWithFirst, ExtProposal.fromProto_proposal decoded, SyncHS.reference, due.view, block]
  cases found : n.proposalByviewMap.lookup A.view with
  | none => exact ⟨ep,decoded,by rw [block]⟩
  | some x => exact due.reference x found

theorem ForwardsDue.next {f : Proposal} {fs : List Proposal} (due : ForwardsDue p cfg A (f :: fs) n)
    (view : n'.view = n.view) (leader : n'.leader = n.leader) (flag : n'.equivocatingProposalInject = false)
    (forwards : row n'.fpropMap A.view = n.forwardsWith f)
    (reference : ∀ x, n'.proposalByviewMap.lookup A.view = some x → ∃ ep, ExtProposal.fromProto p x = some ep ∧
      ep.extBlock.getBlockHash p = A.block.getBlockHash p)
    (checks : fs ≠ [] → ∀ ep, checkProposal p cfg n ep = some true → checkProposal p cfg n' ep = some true) :
    ForwardsDue p cfg A fs n' where
  view := view.trans due.view
  leader := leader.trans due.leader
  follower := due.follower
  whole := due.whole
  unflagged := flag
  checked g member := by
    obtain ⟨ep,decoded,block,checked⟩ := due.checked g (List.mem_cons_of_mem _ member)
    exact ⟨ep,decoded,block,checkForward_of_checkProposal (checks (List.ne_nil_of_mem member) ep) checked⟩
  senders := (List.nodup_cons.mp due.senders).2
  fresh g member := by
    rw [forwards, SyncHS.forwardsWith, due.view, Finmap.mem_insert, not_or]
    refine ⟨?_,due.fresh g (List.mem_cons_of_mem _ member)⟩
    intro same
    exact (List.nodup_cons.mp due.senders).1 (same ▸ List.mem_map_of_mem member)
  complete nonempty := by
    have fresh := due.fresh f List.mem_cons_self
    have before := due.complete (List.cons_ne_nil f fs)
    rw [List.length_cons] at before
    rw [forwards, SyncHS.forwardsWith, due.view, size, keys_insert, Finset.card_insert_of_notMem fresh]
    rw [size] at before
    omega
  reference := reference

theorem ForwardsDue.deliver {f : Proposal} {fs : List Proposal} {vs : List ProtoVote}
    (due : ForwardsDue p cfg A (f :: fs) n) (votesDue : VotesDue p cfg A d vs n) (order : List Nat) :
    ∃ n', n.deliver p cfg order (.proposeChannel f) = some n' ∧ Delivered p cfg order A d fs vs [] fs.isEmpty n n' := by
  obtain ⟨ep,accepted,agrees,block⟩ := due.accepts
  have handled := forwardProposalHandler_counts accepted agrees (block ▸ due.whole)
  have count : size (n.forwardsWith f) = size (row n.fpropMap A.view) + 1 := by
    rw [SyncHS.forwardsWith, due.view, size, keys_insert,
      Finset.card_insert_of_notMem (due.fresh f List.mem_cons_self)]
    rfl
  have complete := due.complete (List.cons_ne_nil f fs)
  rw [List.length_cons] at complete
  have same := ExtProposal.fromProto_proposal accepted.decoded
  by_cases last : fs = []
  · subst last
    have full : ¬size (n.forwardsWith f) < cfg.pMap.card := by
      rw [count]
      simp only [List.length_nil] at complete
      omega
    rw [if_neg full, if_pos (due.leader ▸ due.follower)] at handled
    have kept : VotesDue p cfg A d vs ((n.addForward f).addForwardedBlock p ep) := by
      rw [addForwardedBlock_eq]
      exact votesDue.framed rfl rfl rfl rfl
    have ballot : Polled p order d n [] ((n.addForward f).addForwardedBlock p ep) := by
      rw [addForwardedBlock_eq]
      exact .framed rfl rfl rfl rfl
    refine ⟨(n.addForward f).addForwardedBlock p ep,?_,due.next rfl rfl rfl ?_ ?_ ?_,kept,ballot,?_⟩
    · rw [SyncHS.deliver, runJob, handled]
      rfl
    · exact (row_insert _ _ _ _).trans (if_pos due.view.symm)
    · intro x found
      have stored : ((n.addForward f).addForwardedBlock p ep).proposalByviewMap.lookup A.view = some ep.proposal :=
        (lookup_insert _ _ _ _).trans (if_pos due.view.symm)
      obtain rfl := Option.some.inj (stored.symm.trans found)
      exact ⟨ep,same ▸ accepted.decoded,by rw [block]⟩
    · exact fun nonempty => absurd rfl nonempty
    · rw [certOf_nil]
      simp only [SyncHS.settlement, Agenda.settle, Agenda.commit, ← block, ← due.view, ← due.leader]
      rfl
  · have short : size (n.forwardsWith f) < cfg.pMap.card := by
      have := List.length_pos_iff.mpr last
      omega
    rw [if_pos short] at handled
    refine ⟨n.addForward f,?_,due.next rfl rfl rfl ?_ ?_ ?_,votesDue.framed rfl rfl rfl rfl,.framed rfl rfl rfl rfl,?_⟩
    · rw [SyncHS.deliver, runJob, handled]
      rfl
    · exact (row_insert _ _ _ _).trans (if_pos due.view.symm)
    · intro x found
      have stored : (n.addForward f).proposalByviewMap.lookup A.view = some (n.reference f) :=
        (lookup_insert _ _ _ _).trans (if_pos due.view.symm)
      obtain rfl := Option.some.inj (stored.symm.trans found)
      obtain ⟨ep2,decoded,hash⟩ := agrees
      rw [same] at decoded
      exact ⟨ep2,decoded,by rw [hash, block]⟩
    · exact fun _ ep checked => (checkProposal_congr rfl rfl rfl rfl).trans checked
    · rw [List.isEmpty_eq_false_iff.mpr last, certOf_nil]
      rfl

/-! ### Votes -/

def SyncHS.pooled (n : SyncHS) (w : ProtoVote) (latches : Map Nat Bool) : SyncHS :=
  { n with
    voteMap := put2 n.voteMap n.view w.getVoter 1
    receivedVotes := (n.openPool n.view).receivedVotes.insert n.view (n.poolWith w)
    isCertified := latches }

theorem setPool_credit_openPool (n : SyncHS) (w : ProtoVote) :
    ((n.openPool n.view).credit w).setPool (n.poolWith w) = n.pooled w (n.openPool n.view).isCertified := by
  rw [SyncHS.setPool, SyncHS.credit, openPool_eq]
  rfl

theorem openPool_closed (n : SyncHS) :
    (n.openPool n.view).certified (n.openPool n.view).view ↔ n.closed := by
  rw [openPool_view, SyncHS.closed, SyncHS.certified, SyncHS.openPool]
  split
  next opened => simp only [opened, true_and, SyncHS.certified]
  next unopened =>
    rw [lookup_insert, if_pos rfl]
    exact iff_of_false (by simp) fun closed => unopened closed.1

theorem VotesDue.next {w : ProtoVote} {vs : List ProtoVote} (due : VotesDue p cfg A d (w :: vs) n)
    (view : n'.view = n.view) (leader : n'.leader = n.leader) (reputations : n'.reputationMap = n.reputationMap)
    (pool : n'.pool A.view = n.pool A.view ∨ n'.pool A.view = n.poolWith w) : VotesDue p cfg A d vs n' where
  view := view.trans due.view
  leader := leader.trans due.leader
  owner := due.owner
  whole := due.whole
  data v member := due.data v (List.mem_cons_of_mem _ member)
  body v member := due.body v (List.mem_cons_of_mem _ member)
  known v member := due.known v (List.mem_cons_of_mem _ member)
  valid v member := due.valid v (List.mem_cons_of_mem _ member)
  voters := (List.nodup_cons.mp due.voters).2
  fresh v member := by
    have outside := due.fresh v (List.mem_cons_of_mem _ member)
    rcases pool with same | more
    · rwa [same]
    · rw [more, SyncHS.poolWith, due.view, Finmap.mem_insert, not_or]
      exact ⟨fun same => (List.nodup_cons.mp due.voters).1 (same ▸ List.mem_map_of_mem member),outside⟩
  pooled i member := by
    rw [reputations]
    rcases pool with same | more
    · exact due.pooled i (same ▸ member)
    · rw [more, SyncHS.poolWith, due.view, keys_insert, Finset.mem_insert] at member
      rcases member with rfl | old
      · exact due.rated w List.mem_cons_self
      · exact due.pooled i old
  rated v member := reputations ▸ due.rated v (List.mem_cons_of_mem _ member)

theorem openPool_heavy (n : SyncHS) (height : Nat) : (n.openPool height).heavy = n.heavy := by
  funext voters
  simp only [SyncHS.heavy, SyncHS.getCertBenchMark, SyncHS.weight, openPool_view, openPool_reputationMap]

inductive Casts (p : Platform) (order : List Nat) (d : ProtoVoteData) (n : SyncHS) (w : ProtoVote) :
    SyncHS → Effect → Prop where
  | late : n.closed → Casts p order d n w ((n.openPool n.view).credit w) .none
  | pooled : ¬n.closed → ¬n.heavy (n.poolWith w).keys →
      Casts p order d n w (n.pooled w (n.openPool n.view).isCertified) .none
  | certifies : ¬n.closed → n.heavy (n.poolWith w).keys →
      Casts p order d n w (n.pooled w ((n.openPool n.view).isCertified.insert n.view true))
        ⟨[.addCert (n.certWith p w d order) n.view],[],[]⟩

theorem VotesDue.casts {w : ProtoVote} {vs : List ProtoVote} (due : VotesDue p cfg A d (w :: vs) n) (order : List Nat) :
    ∃ n' effect, voteHandler p cfg n w order = some (n',effect) ∧ Casts p order d n w n' effect := by
  have data := due.data w List.mem_cons_self
  have leader : d.owner = n.leader := due.owner.trans due.leader.symm
  have pool : (n.openPool n.view).poolWith w = n.poolWith w := by
    rw [SyncHS.poolWith, SyncHS.poolWith, openPool_view, openPool_pool]
  have fresh : w.getVoter ∉ n.pool n.view := due.view ▸ due.fresh w List.mem_cons_self
  have heavy := openPool_heavy n n.view
  have total : (voteHandler p cfg n w order).isSome := by
    refine voteHandler_total data (due.body w List.mem_cons_self) due.whole (due.known w List.mem_cons_self) ?_
    intro i member
    rw [SyncHS.poolWith, keys_insert, Finset.mem_insert] at member
    rw [due.view] at member ⊢
    rcases member with rfl | old
    · exact due.rated w List.mem_cons_self
    · exact due.pooled i old
  obtain ⟨⟨n',effect⟩,handled⟩ := Option.isSome_iff_exists.mp total
  refine ⟨n',effect,handled,?_⟩
  cases voteHandler_cases handled with
  | foreign d' found other =>
    obtain rfl := Option.some.inj (data.symm.trans found)
    exact absurd leader other
  | dropped d' found _ reason =>
    rcases reason with twice | ⟨other,invalid⟩
    · exact absurd twice fresh
    · rcases due.valid w List.mem_cons_self with own | valid
      · exact absurd own other
      · rw [valid] at invalid
        exact absurd (Option.some.inj invalid) (by simp)
  | counted d' _ _ joins counted =>
    obtain rfl := Option.some.inj (data.symm.trans joins.data)
    have closed := openPool_closed n
    cases counted with
    | late certified => exact .late (closed.mp certified)
    | pooled opened _ low =>
      rw [pool, setPool_credit_openPool]
      refine .pooled (closed.not.mp opened) ?_
      rw [← heavy, ← pool]
      exact not_lt.mpr low
    | certifies opened _ high =>
      have casts : Casts p order d n w (n.pooled w ((n.openPool n.view).isCertified.insert n.view true))
          ⟨[.addCert (n.certWith p w d order) n.view],[],[]⟩ := by
        refine .certifies (closed.not.mp opened) ?_
        rw [← heavy, ← pool]
        exact high
      rw [SyncHS.certWith, pool, setPool_credit_openPool, openPool_view]
      exact casts

theorem certOf_singleton (n : SyncHS) (w : ProtoVote) : n.certOf p order d [w] =
    if n.closed ∨ ¬n.heavy (n.poolWith w).keys then none else some (n.certWith p w d order) := by
  rw [SyncHS.certOf, SyncHS.crossing, SyncHS.crossing]
  by_cases closed : n.closed
  · rw [if_pos closed, if_pos (Or.inl closed)]
  · rw [if_neg closed]
    by_cases heavy : n.heavy (n.poolWith w).keys
    · rw [if_neg (not_or.mpr ⟨closed,not_not.mpr heavy⟩)]
      exact congrArg (Option.map _) (if_pos heavy)
    · rw [if_pos (Or.inr heavy)]
      exact congrArg (Option.map _) (if_neg heavy)

theorem certOf_closed (closed : n.closed) (vs : List ProtoVote) : n.certOf p order d vs = none := if_pos closed

theorem Polled.late (closed : n.closed) (closed' : n'.closed) (w : ProtoVote) : Polled p order d n [w] n' :=
  ⟨fun vs => by rw [certOf_closed closed, certOf_closed closed, certOf_closed closed']; rfl,
    fun _ vs => certOf_closed closed' vs⟩

theorem Polled.pooled {w : ProtoVote} (closed : ¬n.closed) (light : ¬n.heavy (n.poolWith w).keys) (closed' : ¬n'.closed)
    (pool : n'.pool n'.view = n.poolWith w) (crossing : n'.crossing = n.crossing) : Polled p order d n [w] n' := by
  have first : n.certOf p order d [w] = none := by rw [certOf_singleton, if_pos (Or.inr light)]
  constructor
  · intro vs
    rw [first, Option.none_or, SyncHS.certOf, SyncHS.certOf, if_neg closed, if_neg closed', pool, crossing]
    exact congrArg (Option.map _) (if_neg light)
  · intro made
    rw [first] at made
    contradiction

theorem Polled.closes {w : ProtoVote} (closed : ¬n.closed) (heavy : n.heavy (n.poolWith w).keys) (closed' : n'.closed) :
    Polled p order d n [w] n' := by
  refine ⟨fun vs => ?_,fun _ vs => certOf_closed closed' vs⟩
  rw [certOf_singleton, if_neg (not_or.mpr ⟨closed,not_not.mpr heavy⟩), Option.some_or, SyncHS.certOf, if_neg closed]
  exact congrArg (Option.map _) (if_pos heavy)

theorem pooled_closed (n : SyncHS) (w : ProtoVote) (latches : Map Nat Bool) :
    (n.pooled w latches).closed ↔ latches.lookup n.view = some true := by
  have opened : (n.pooled w latches).receivedVotes.lookup (n.pooled w latches).view = some (n.poolWith w) :=
    (lookup_insert _ _ _ _).trans (if_pos rfl)
  rw [SyncHS.closed, opened]
  exact and_iff_right rfl

theorem openPool_of_closed (closed : n.closed) : n.openPool n.view = n := if_pos closed.1

theorem openPool_latch (closed : ¬n.closed) : (n.openPool n.view).isCertified.lookup n.view ≠ some true := by
  have latched := (openPool_closed n).not.mpr closed
  rwa [openPool_view] at latched

theorem Casts.delivered {w : ProtoVote} {fs : List Proposal} {vs : List ProtoVote} {effect : Effect}
    (casts : Casts p order d n w n' effect) (due : VotesDue p cfg A d (w :: vs) n) (forwardsDue : ForwardsDue p cfg A fs n) :
    Delivered p cfg order A d fs vs [w] false n
      ((effect.jobs.filterMap Job.storedCert).foldl (fun n entry => n.addCert entry.2 entry.1) n') := by
  have kept {latches : Map Nat Bool} {certs : Map Nat BlockCertificate} :
      ForwardsDue p cfg A fs { n.pooled w latches with certMap := certs } :=
    forwardsDue.framed rfl rfl rfl rfl rfl fun ep checked => (checkProposal_congr rfl rfl rfl rfl).trans checked
  have pool : row ((n.openPool n.view).receivedVotes.insert n.view (n.poolWith w)) A.view = n.poolWith w :=
    (row_insert _ _ _ _).trans (if_pos due.view.symm)
  cases casts with
  | late closed =>
    rw [openPool_of_closed closed]
    have closed' : (n.credit w).closed := closed
    refine ⟨forwardsDue.framed rfl rfl rfl rfl rfl fun ep checked => (checkProposal_congr rfl rfl rfl rfl).trans checked,
      due.next rfl rfl rfl (Or.inl rfl),.late closed closed' w,?_⟩
    rw [certOf_closed closed]
    rfl
  | pooled closed light =>
    refine ⟨kept,due.next rfl rfl rfl (Or.inr pool),.pooled closed light ?_ ?_ (crossing_congr rfl rfl),?_⟩
    · exact (pooled_closed n w _).not.mpr (openPool_latch closed)
    · exact (row_insert _ _ _ _).trans (if_pos rfl)
    · rw [certOf_singleton, if_pos (Or.inr light)]
      rfl
  | certifies closed heavy =>
    refine ⟨kept,due.next rfl rfl rfl (Or.inr pool),.closes closed heavy ?_,?_⟩
    · exact (pooled_closed n w _).mpr ((lookup_insert _ _ _ _).trans (if_pos rfl))
    · rw [certOf_singleton, if_neg (not_or.mpr ⟨closed,not_not.mpr heavy⟩)]
      have certified (cert : BlockCertificate) : A.certify cert n.settlement =
          { n.settlement with certMap := n.certMap.insert n.view cert } := by
        rw [Agenda.certify, ← due.view]
        rfl
      exact (certified _).symm

theorem VotesDue.deliver {w : ProtoVote} {fs : List Proposal} {vs : List ProtoVote}
    (due : VotesDue p cfg A d (w :: vs) n) (forwardsDue : ForwardsDue p cfg A fs n) (order : List Nat) :
    ∃ n', n.deliver p cfg order (.voteChannel w) = some n' ∧ Delivered p cfg order A d fs vs [w] false n n' := by
  obtain ⟨n',effect,handled,casts⟩ := due.casts order
  exact ⟨_,by rw [SyncHS.deliver, runJob, handled]; rfl,casts.delivered due forwardsDue⟩

/-! ### Evidence -/

theorem createAnEmptyBlock_extra (p : Platform) (cert : BlockCertificate) (height : Nat) :
    (createAnEmptyBlock p [] cert height emptyExtra).getExtra.length = 1 := rfl

theorem ForwardsDue.evidence {e : EquivocationEvidence} {fs : List Proposal} {vs : List ProtoVote}
    (forwardsDue : ForwardsDue p cfg A fs n) (votesDue : VotesDue p cfg A d vs n)
    (valid : isEqpEvidenceValid p cfg n e = some true) (order : List Nat) :
    ∃ n', n.deliver p cfg order (.eqEvidenceChannel e) = some n' ∧ ForwardsDue p cfg A fs n' ∧ VotesDue p cfg A d vs n' ∧
      Polled p order d n [] n' ∧ n'.settlement = A.convict p n.settlement := by
  have convicted : A.convict p n.settlement = if at2 n.equiproposalMap n.view n.leader = some 1 then n.settlement
      else (n.certMap.lookup n.bc.head).elim n.settlement fun cert =>
        ((n.appendEmptyBlock p cert).addEquiProposaltoMap).settlement := by
    rw [Agenda.convict, ← forwardsDue.view, ← forwardsDue.leader]
    refine if_congr Iff.rfl rfl (congrArg (fun f => Option.elim _ n.settlement f) ?_)
    funext cert
    rw [Agenda.replace, ← forwardsDue.view, ← forwardsDue.leader]
    rfl
  rw [convicted, SyncHS.deliver, runJob, equivocationEvidenceHandler]
  split
  next => exact ⟨n,rfl,forwardsDue,votesDue,.framed rfl rfl rfl rfl,rfl⟩
  next =>
    rw [valid]
    simp only [SyncHS.getCertForBlockIndex]
    cases n.certMap.lookup n.bc.head with
    | none => exact ⟨n,rfl,forwardsDue,votesDue,.framed rfl rfl rfl rfl,rfl⟩
    | some cert =>
      refine ⟨(n.appendEmptyBlock p cert).addEquiProposaltoMap,rfl,
        forwardsDue.framed rfl rfl rfl rfl rfl fun ep checked => ?_,votesDue.framed rfl rfl rfl rfl,
        .framed rfl rfl rfl rfl,rfl⟩
      exact checkProposal_extend (n := n) (createAnEmptyBlock_extra p cert (n.bc.head + 1)) rfl rfl rfl rfl checked

/-! ### Orders -/

theorem isEqpEvidenceValid_congr {e : EquivocationEvidence} (view : n'.view = n.view) (leader : n'.leader = n.leader) :
    isEqpEvidenceValid p cfg n' e = isEqpEvidenceValid p cfg n e := by
  simp only [isEqpEvidenceValid, isEnvelopeValid, view, leader]

theorem deliverAll_plain {jobs : List Job} (plain : ∀ job ∈ jobs, job.heldForward.isSome ∨ job.heldVote.isSome)
    {fs : List Proposal} {vs : List ProtoVote} (forwardsDue : ForwardsDue p cfg A (forwardsIn jobs ++ fs) n)
    (votesDue : VotesDue p cfg A d (votesIn jobs ++ vs) n) (order : List Nat) :
    ∃ n', n.deliverAll p cfg order jobs = some n' ∧
      Delivered p cfg order A d fs vs (votesIn jobs) (!(forwardsIn jobs).isEmpty && fs.isEmpty) n n' := by
  induction jobs generalizing n with
  | nil => exact ⟨n,rfl,forwardsDue,votesDue,.framed rfl rfl rfl rfl,by rw [votesIn, List.filterMap_nil, certOf_nil]; rfl⟩
  | cons job jobs ih =>
    have rest : ∀ job ∈ jobs, job.heldForward.isSome ∨ job.heldVote.isSome :=
      fun job member => plain job (List.mem_cons_of_mem _ member)
    have kind := plain job List.mem_cons_self
    cases job with
    | proposeChannel f =>
      have due : ForwardsDue p cfg A (f :: (forwardsIn jobs ++ fs)) n := forwardsDue
      obtain ⟨m,delivered,first⟩ := due.deliver votesDue order
      obtain ⟨n',others,second⟩ := ih rest first.forwards first.votes
      refine ⟨n',?_,?_⟩
      · rw [SyncHS.deliverAll, List.foldlM_cons, delivered]
        exact others
      · have both := first.trans second (by cases forwardsIn jobs <;> cases fs <;> rfl)
        have committed : ((forwardsIn jobs ++ fs).isEmpty || (!(forwardsIn jobs).isEmpty && fs.isEmpty)) = fs.isEmpty := by
          cases forwardsIn jobs <;> cases fs <;> rfl
        rw [committed] at both
        exact both
    | voteChannel w =>
      have due : VotesDue p cfg A d (w :: (votesIn jobs ++ vs)) n := votesDue
      obtain ⟨m,delivered,first⟩ := due.deliver forwardsDue order
      obtain ⟨n',others,second⟩ := ih rest first.forwards first.votes
      refine ⟨n',?_,first.trans second rfl⟩
      rw [SyncHS.deliverAll, List.foldlM_cons, delivered]
      exact others
    | _ => simp [Job.heldForward,Job.heldVote] at kind

/-- An order in which the messages of the view arrive: those before and after the evidence, and the
traversal of the pool when the certificate is built. -/
structure Schedule where
  order : List Nat
  before : List Job
  after : List Job

namespace Schedule

variable (S T : Schedule)

def jobs : List Job := S.before ++ S.after

def run (p : Platform) (cfg : NodeConfig) (e : EquivocationEvidence) (n : SyncHS) : Option SyncHS :=
  n.deliverAll p cfg S.order (S.before ++ .eqEvidenceChannel e :: S.after)

def committed : Bool := (forwardsIn S.after).isEmpty

def certified (p : Platform) (d : ProtoVoteData) (n : SyncHS) : Bool :=
  (n.certOf p S.order d (votesIn S.before)).isSome

def cert (p : Platform) (d : ProtoVoteData) (n : SyncHS) : Option BlockCertificate :=
  n.certOf p S.order d (votesIn S.jobs)

/-- The evidence comes at the same stage: the forwards are complete before it in both orders or in
neither, and so are the votes. -/
def SameStage (p : Platform) (d : ProtoVoteData) (n : SyncHS) : Prop :=
  S.committed = T.committed ∧ S.certified p d n = T.certified p d n

/-- No handler panics, and the outcome is that of the stage. -/
theorem run_outcome {S : Schedule} {e : EquivocationEvidence} (forwardsDue : ForwardsDue p cfg A (forwardsIn S.jobs) n)
    (nonempty : forwardsIn S.jobs ≠ []) (votesDue : VotesDue p cfg A d (votesIn S.jobs) n)
    (valid : isEqpEvidenceValid p cfg n e = some true)
    (plain : ∀ job ∈ S.jobs, job.heldForward.isSome ∨ job.heldVote.isSome) {cert : BlockCertificate}
    (made : S.cert p d n = some cert) : ∃ m, S.run p cfg e n = some m ∧
      m.settlement = A.outcome p S.committed (S.certified p d n) cert n.settlement := by
  rw [jobs, forwardsIn_append] at forwardsDue nonempty
  rw [jobs, votesIn_append] at votesDue
  rw [Schedule.cert, jobs, votesIn_append] at made
  obtain ⟨n₁,ran₁,first⟩ := deliverAll_plain
    (fun job member => plain job (List.mem_append_left _ member)) forwardsDue votesDue S.order
  obtain ⟨n₂,ran₂,forwardsDue₂,votesDue₂,ballot,convicted⟩ := first.forwards.evidence first.votes
    ((isEqpEvidenceValid_congr (first.forwards.view.trans forwardsDue.view.symm)
      (first.forwards.leader.trans forwardsDue.leader.symm)).trans valid) S.order
  rw [← List.append_nil (forwardsIn S.after)] at forwardsDue₂
  rw [← List.append_nil (votesIn S.after)] at votesDue₂
  obtain ⟨n₃,ran₃,second⟩ := deliverAll_plain
    (fun job member => plain job (List.mem_append_right _ member)) forwardsDue₂ votesDue₂ S.order
  have later := ballot.append (votesIn S.after)
  rw [certOf_nil, Option.none_or, List.nil_append] at later
  rw [first.ballot.append, later] at made
  refine ⟨n₃,?_,?_⟩
  · rw [Schedule.run, SyncHS.deliverAll, List.foldlM_append, show S.before.foldlM _ n = some n₁ from ran₁]
    rw [Option.bind_eq_bind, Option.bind_some, List.foldlM_cons, ran₂]
    exact ran₃
  · have committed : (!(forwardsIn S.before).isEmpty && (forwardsIn S.after).isEmpty) = S.committed := by
      rw [Schedule.committed]
      cases before : forwardsIn S.before with
      | nil =>
        have after : forwardsIn S.after ≠ [] := by simpa [before] using nonempty
        simp [after]
      | cons _ _ => rfl
    have completed : (!(forwardsIn S.after).isEmpty && ([] : List Proposal).isEmpty) = !S.committed := Bool.and_true _
    rw [second.settlement, convicted, first.settlement, committed, completed, Agenda.outcome, Schedule.certified]
    cases early : n.certOf p S.order d (votesIn S.before) with
    | none =>
      rw [early, Option.none_or] at made
      rw [made]
      rfl
    | some cert' =>
      rw [early, Option.some_or] at made
      rw [← later, first.ballot.once (by rw [early]; rfl), Option.some.inj made]
      rfl

end Schedule

theorem crossing_isSome {pool : Map Nat ProtoVote} {vs : List ProtoVote} (nonempty : vs ≠ [])
    (heavy : n.heavy (pool.keys ∪ (vs.map ProtoVote.getVoter).toFinset)) : (n.crossing pool vs).isSome := by
  induction vs generalizing pool with
  | nil => exact absurd rfl nonempty
  | cons w vs ih =>
    rw [SyncHS.crossing]
    split
    next => rfl
    next light =>
      rw [List.map_cons, List.toFinset_cons, Finset.union_insert, ← Finset.insert_union, ← keys_insert] at heavy
      refine ih ?_ heavy
      rintro rfl
      rw [List.map_nil, List.toFinset_nil, Finset.union_empty] at heavy
      exact light heavy

theorem crossing_nonempty {pool crossed : Map Nat ProtoVote} {vs : List ProtoVote}
    (crosses : n.crossing pool vs = some crossed) : crossed.keys.Nonempty := by
  induction vs generalizing pool with
  | nil => contradiction
  | cons w vs ih =>
    rw [SyncHS.crossing] at crosses
    split at crosses
    next =>
      obtain rfl := Option.some.inj crosses
      rw [keys_insert]
      exact Finset.insert_nonempty _ _
    next => exact ih crosses

theorem certOf_some {vs : List ProtoVote} {cert : BlockCertificate} (made : n.certOf p order d vs = some cert) :
    cert.part.ids ≠ [] ∧ cert.data = ⟨(p.toHash d.blockHash).bytes,d.view,0⟩ := by
  rw [SyncHS.certOf] at made
  split at made
  next => contradiction
  next =>
    obtain ⟨pool,crosses,rfl⟩ := Option.map_eq_some_iff.mp made
    refine ⟨?_,newCert_data _ _ _⟩
    obtain ⟨i,member⟩ := crossing_nonempty crosses
    obtain ⟨w,found⟩ := Option.isSome_iff_exists.mp (Finmap.lookup_isSome.mpr (Finmap.mem_keys.mp member))
    rw [newCert_ids]
    refine List.ne_nil_of_mem (List.mem_map_of_mem (List.mem_filterMap.mpr ⟨i,?_,found⟩))
    exact (mem_traversal pool order i).mpr (Finmap.mem_keys.mp member)

def SyncHS.Agrees (view : Nat) (m m' : SyncHS) : Prop := Agenda.Agrees view m.settlement m'.settlement

/-- Two orders of the forwards, the votes and the evidence agree if the evidence comes at the same stage
and the votes make the same certificate. In a view in which nothing has happened yet they agree only
then, except that after the votes the evidence replaces their certificate. -/
theorem evidence_orders_agree_iff {S T : Schedule} {e : EquivocationEvidence}
    (forwardsDue : ForwardsDue p cfg A (forwardsIn S.jobs) n) (forwards : forwardsIn S.jobs ≠ [])
    (votesDue : VotesDue p cfg A d (votesIn S.jobs) n) (votes : votesIn S.jobs ≠ []) (opened : ¬n.certified A.view)
    (heavy : n.heavy ((n.pool A.view).keys ∪ ((votesIn S.jobs).map ProtoVote.getVoter).toFinset))
    (valid : isEqpEvidenceValid p cfg n e = some true)
    (plain : ∀ job ∈ S.jobs, job.heldForward.isSome ∨ job.heldVote.isSome) (perm : S.jobs.Perm T.jobs) :
    ∃ m m', S.run p cfg e n = some m ∧ T.run p cfg e n = some m' ∧
      (S.SameStage T p d n → S.cert p d n = T.cert p d n → m.Agrees A.view m') ∧
      (A.Ordinary n.settlement → (m.Agrees A.view m' ↔
        S.SameStage T p d n ∧ (S.certified p d n = true ∨ S.cert p d n = T.cert p d n))) := by
  have sameForwards : (forwardsIn S.jobs).Perm (forwardsIn T.jobs) := perm.filterMap _
  have sameVotes : (votesIn S.jobs).Perm (votesIn T.jobs) := perm.filterMap _
  have closed : ¬n.closed := fun closed => opened (votesDue.view ▸ closed.2)
  have makes {order : List Nat} {vs : List ProtoVote} (cast : (votesIn S.jobs).Perm vs) :
      ∃ cert, n.certOf p order d vs = some cert := by
    have crosses : (n.crossing (n.pool n.view) vs).isSome := by
      refine crossing_isSome (fun none => votes (none ▸ cast).eq_nil) ?_
      rwa [votesDue.view, ← List.toFinset_eq_of_perm _ _ (cast.map _)]
    rw [SyncHS.certOf, if_neg closed]
    exact Option.isSome_iff_exists.mp (by rwa [Option.isSome_map])
  obtain ⟨cert,made⟩ : ∃ cert, S.cert p d n = some cert := makes (.refl _)
  obtain ⟨cert',made'⟩ : ∃ cert, T.cert p d n = some cert := makes sameVotes
  obtain ⟨m,ran,settled⟩ := Schedule.run_outcome forwardsDue forwards votesDue valid plain made
  obtain ⟨m',ran',settled'⟩ := Schedule.run_outcome (forwardsDue.perm sameForwards)
    (fun none => forwards (none ▸ sameForwards).eq_nil) (votesDue.perm sameVotes) valid
    (fun job member => plain job (perm.mem_iff.mpr member)) made'
  have voted {cert : BlockCertificate} (signed : cert.part.ids ≠ []) (hash : Hash) (view : Nat) :
      cert ≠ emptyCertificate hash view := by
    rintro rfl
    exact signed rfl
  have info : cert.getBlockInfo p = cert'.getBlockInfo p := by
    rw [BlockCertificate.getBlockInfo, BlockCertificate.getBlockInfo, (certOf_some made).2, (certOf_some made').2]
  refine ⟨m,m',ran,ran',?_,fun ordinary => ?_⟩
  · rintro ⟨committed,certified⟩ same
    rw [made, made'] at same
    rw [SyncHS.Agrees, settled, settled', committed, certified, Option.some.inj same]
    exact ⟨rfl,rfl,rfl,rfl⟩
  · rw [SyncHS.Agrees, settled, settled', made, made', Option.some_inj]
    exact ordinary.outcome_agrees (voted (certOf_some made).1) (voted (certOf_some made').1) info

end Deliver

/-! ### Two nodes -/

def pairFollower : NodeConfig := .complete 2 1 true .plain 1

def pairNode : SyncHS := clientConnects pairFollower .init

def pairProposal (extra : Bytes) : Proposal :=
  newCandidateProposal transparent (.complete 2 1 true .plain 0) pairNode [[1]] genesisCert 1 extra

def pairBlock : ExtBlock := candidateBlock transparent [[1]] genesisCert 1 []

def pairForward : Proposal := signForward transparent pairFollower (pairProposal [])

def pairData : ProtoVoteData := ⟨(pairBlock.getBlockHash transparent).bytes,1,0⟩

def pairVote (i : Nat) : ProtoVote := signVote transparent (.complete 2 1 true .plain i) pairData

def pairEvidence : EquivocationEvidence :=
  eqEvidenceOf transparent pairFollower pairNode (pairProposal []) (pairProposal [50])

def pairAgenda : Agenda := ⟨1,0,pairBlock⟩

theorem pairForward_due : ForwardsDue transparent pairFollower pairAgenda [pairForward] pairNode where
  view := rfl
  leader := rfl
  follower := by decide
  whole := by decide +kernel
  unflagged := rfl
  checked f member := by
    obtain rfl := List.mem_singleton.mp member
    have passes : ∃ ep ∈ ExtProposal.fromProto transparent pairForward, ep.extBlock = pairBlock ∧
        checkForward transparent pairFollower pairNode ep = some true := by decide +kernel
    exact passes
  senders := by simp
  fresh f member := Finmap.notMem_empty
  complete _ := by decide
  reference x found := by
    have blank : pairNode.proposalByviewMap.lookup pairAgenda.view = none := rfl
    rw [blank] at found
    contradiction

theorem pairVotes_due : VotesDue transparent pairFollower pairAgenda pairData [pairVote 0,pairVote 1] pairNode where
  view := rfl
  leader := rfl
  owner := rfl
  whole := by decide +kernel
  data := by decide +kernel
  body := by decide +kernel
  known := by decide +kernel
  valid := by decide +kernel
  voters := by decide
  fresh := by decide +kernel
  pooled := by decide +kernel
  rated := by decide +kernel

theorem pair_ordinary : pairAgenda.Ordinary pairNode.settlement where
  headed := by decide +kernel
  view := rfl
  height := by decide +kernel
  top := by decide +kernel
  uncertified := by decide +kernel
  unrecorded := by decide +kernel

theorem pairEvidence_valid : isEqpEvidenceValid transparent pairFollower pairNode pairEvidence = some true := by
  decide +kernel

/-- The evidence comes first in both orders. -/
theorem pair_evidence_first : ∃ m m',
    pairNode.deliverAll transparent pairFollower [0,1] [.eqEvidenceChannel pairEvidence,.proposeChannel pairForward,
      .voteChannel (pairVote 0),.voteChannel (pairVote 1)] = some m ∧
    pairNode.deliverAll transparent pairFollower [0,1] [.eqEvidenceChannel pairEvidence,.voteChannel (pairVote 1),
      .voteChannel (pairVote 0),.proposeChannel pairForward] = some m' ∧ m.Agrees 1 m' := by
  obtain ⟨m,m',first,second,_,exactly⟩ := @evidence_orders_agree_iff _ _ _ _ _
    ⟨[0,1],[],[.proposeChannel pairForward,.voteChannel (pairVote 0),.voteChannel (pairVote 1)]⟩
    ⟨[0,1],[],[.voteChannel (pairVote 1),.voteChannel (pairVote 0),.proposeChannel pairForward]⟩ pairEvidence
    pairForward_due (List.cons_ne_nil _ _) pairVotes_due (List.cons_ne_nil _ _) (by decide +kernel) (by decide +kernel)
    pairEvidence_valid (by simp [Schedule.jobs,Job.heldForward,Job.heldVote])
    (List.reverse_perm [Job.proposeChannel pairForward,.voteChannel (pairVote 0),.voteChannel (pairVote 1)]).symm
  exact ⟨m,m',first,second,(exactly pair_ordinary).mpr ⟨⟨rfl,by decide +kernel⟩,Or.inr (by decide +kernel)⟩⟩

/-- What is left of the view in a node: the head, whether there are blocks at the first two
heights, and whether the leader is recorded. -/
def SyncHS.summary (n : SyncHS) : Nat × Bool × Bool × Option Nat :=
  (n.bc.head,(n.bc.blocksByHeight.lookup 1).isSome,(n.bc.blocksByHeight.lookup 2).isSome,
    at2 n.equiproposalMap 1 0)

/-- Evidence before the forward leaves the head at a height without a block, evidence
between the forward and the votes is lost, and evidence after the votes adds an empty block. -/
theorem evidence_stage_matters :
    pairNode.leader ≠ pairFollower.id ∧ (pairNode.certMap.lookup pairNode.bc.head).isSome ∧
    ForwardsDue transparent pairFollower pairAgenda [pairForward] pairNode ∧
    VotesDue transparent pairFollower pairAgenda pairData [pairVote 0,pairVote 1] pairNode ∧ pairNode.heavy {0,1} ∧
    isEqpEvidenceValid transparent pairFollower pairNode pairEvidence = some true ∧
    (pairNode.deliverAll transparent pairFollower [0,1] [.eqEvidenceChannel pairEvidence,.proposeChannel pairForward,
      .voteChannel (pairVote 0),.voteChannel (pairVote 1)]).map SyncHS.summary = some (2,true,false,some 1) ∧
    (pairNode.deliverAll transparent pairFollower [0,1] [.proposeChannel pairForward,.eqEvidenceChannel pairEvidence,
      .voteChannel (pairVote 0),.voteChannel (pairVote 1)]).map SyncHS.summary = some (1,true,false,none) ∧
    (pairNode.deliverAll transparent pairFollower [0,1] [.proposeChannel pairForward,.voteChannel (pairVote 0),
      .voteChannel (pairVote 1),.eqEvidenceChannel pairEvidence]).map SyncHS.summary = some (2,true,true,some 1) := by
  refine ⟨by decide,by decide +kernel,pairForward_due,pairVotes_due,by decide +kernel,pairEvidence_valid,?_,?_,?_⟩ <;> decide +kernel

end ReputationSMR
