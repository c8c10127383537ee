import ReputationSMR.VoteHandler
import ReputationSMR.Machine

/-! Runs of `voteHandler`: votes in any order, with the view, the leader and the
reputations of views without votes changing between the iterations. The handler
forms one certificate per view at most and its signers hold a majority of the
reputation of that view; which block the votes were for is another matter, since the
pool is not split by block hash. -/
namespace ReputationSMR

open Wire FiniteMap

/-! ## Runs of the handler -/

/-- `stored` lists the calls of `addCert` with the index and the certificate. -/
structure VoteRun where
  node : SyncHS
  stored : List (Nat × BlockCertificate)

inductive VoteEvent where
  | vote (v : ProtoVote) (order : List Nat)
  | enter (view leader : Nat) (reputations : Map Nat (Map Nat ℚ))

/-- Entering a view does not touch the reputations of views that were voted in. -/
def VoteRun.enabled (s : VoteRun) : VoteEvent → Prop
  | .vote _ _ => True
  | .enter _ _ reputations =>
    ∀ view ∈ s.node.receivedVotes.keys, row reputations view = row s.node.reputationMap view

instance (s : VoteRun) (e : VoteEvent) : Decidable (s.enabled e) :=
  match e with
  | .vote _ _ => isTrue trivial
  | .enter _ _ reputations => inferInstanceAs (Decidable (∀ view ∈ s.node.receivedVotes.keys,
      row reputations view = row s.node.reputationMap view))

def VoteRun.step (p : Platform) (cfg : NodeConfig) (s : VoteRun) : VoteEvent → Option VoteRun
  | .vote v order => (voteHandler p cfg s.node v order).map fun (n,effect) =>
      ⟨n,s.stored ++ effect.jobs.filterMap Job.storedCert⟩
  | .enter view leader reputations =>
    some { s with node := { s.node with view := view, leader := leader, reputationMap := reputations } }

def voteMachine (p : Platform) (cfg : NodeConfig) : Guarded.Machine VoteRun VoteEvent :=
  ⟨VoteRun.enabled,VoteRun.step p cfg⟩

instance (p : Platform) (cfg : NodeConfig) (s : VoteRun) (e : VoteEvent) :
    Decidable ((voteMachine p cfg).enabled s e) :=
  inferInstanceAs (Decidable (s.enabled e))

/-- The handler has started and no vote has come: everything else is arbitrary. -/
structure VoteRun.Fresh (s : VoteRun) : Prop where
  noVotes : s.node.receivedVotes = ∅
  noLatch : s.node.isCertified = ∅
  noCert : s.stored = []

/-! ## The pools and the certificates built from them -/

/-- A certificate lists the whole pool and takes its block from one of the votes. -/
structure BuiltFrom (p : Platform) (pool : Map Nat ProtoVote) (bc : BlockCertificate) : Prop where
  votes : ∃ order hash view, bc = newCert (poolVotes pool order) hash view
  block : ∃ i v d, pool.lookup i = some v ∧ v.data = some d ∧
    bc.data = ⟨(p.toHash d.blockHash).bytes,d.view,0⟩

structure PoolInvariant (p : Platform) (s : VoteRun) : Prop where
  opened : ∀ view, s.node.certified view → view ∈ s.node.receivedVotes.keys
  keyed : ∀ view i v, (s.node.pool view).lookup i = some v → v.getVoter = i
  latched : ∀ entry ∈ s.stored, s.node.certified entry.1
  once : (s.stored.map Prod.fst).Nodup
  built : ∀ entry ∈ s.stored, BuiltFrom p (s.node.pool entry.1) entry.2
  listed : ∀ entry ∈ s.stored, (s.node.pool entry.1).keys ⊆ (row s.node.reputationMap entry.1).keys
  quorum : ∀ entry ∈ s.stored, total (row s.node.reputationMap entry.1) * (1 / 2) <
    sumAt (row s.node.reputationMap entry.1) (s.node.pool entry.1).keys

section Preservation

variable {p : Platform} {cfg : NodeConfig}

theorem openPool_certified (n : SyncHS) (height view : Nat)
    (opened : n.certified view → view ∈ n.receivedVotes.keys) :
    (n.openPool height).certified view ↔ n.certified view := by
  simp only [SyncHS.openPool, SyncHS.certified]
  split
  next => rfl
  next absent =>
    rw [lookup_insert]
    split
    next same =>
      subst same
      constructor
      · simp
      · intro set
        have member := opened set
        rw [Finmap.mem_keys, ← Finmap.lookup_isSome] at member
        exact absurd member absent
    next => rfl

theorem PoolInvariant.fresh {s : VoteRun} (start : s.Fresh) : PoolInvariant p s := by
  obtain ⟨noVotes,noLatch,noCert⟩ := start
  constructor <;> simp [SyncHS.certified,SyncHS.pool,noVotes,noLatch,noCert]

theorem PoolInvariant.openPool {n : SyncHS} {stored : List (Nat × BlockCertificate)}
    (invariant : PoolInvariant p ⟨n,stored⟩) (height : Nat) :
    PoolInvariant p ⟨n.openPool height,stored⟩ := by
  have latch (view : Nat) := openPool_certified n height view (invariant.opened view)
  constructor <;> simp only [openPool_pool, openPool_reputationMap, latch]
  case opened =>
    intro view set
    rw [openPool_keys]
    exact Finset.mem_insert_of_mem (invariant.opened view set)
  case keyed => exact invariant.keyed
  case latched => exact invariant.latched
  case once => exact invariant.once
  case built => exact invariant.built
  case listed => exact invariant.listed
  case quorum => exact invariant.quorum

theorem joined_pool (m : SyncHS) (v : ProtoVote) (view : Nat) :
    ((m.credit v).setPool (m.poolWith v)).pool view =
      if view = m.view then m.poolWith v else m.pool view :=
  row_insert m.receivedVotes m.view view _

theorem lookup_poolWith (m : SyncHS) (v : ProtoVote) (i : Nat) :
    (m.poolWith v).lookup i = if i = v.getVoter then some v else (m.pool m.view).lookup i :=
  lookup_insert _ _ _ _

theorem PoolInvariant.join {m : SyncHS} {stored : List (Nat × BlockCertificate)} (v : ProtoVote)
    (invariant : PoolInvariant p ⟨m,stored⟩) (uncertified : ¬m.certified m.view) :
    PoolInvariant p ⟨(m.credit v).setPool (m.poolWith v),stored⟩ := by
  have apart (entry) (member : entry ∈ stored) : entry.1 ≠ m.view := by
    intro same
    exact uncertified (same ▸ invariant.latched entry member)
  have kept (entry) (member : entry ∈ stored) :
      ((m.credit v).setPool (m.poolWith v)).pool entry.1 = m.pool entry.1 := by
    rw [joined_pool, if_neg (apart entry member)]
  refine ⟨?_,?_,invariant.latched,invariant.once,?_,?_,?_⟩
  · intro view set
    simp only [SyncHS.setPool, SyncHS.credit, keys_insert]
    exact Finset.mem_insert_of_mem (invariant.opened view set)
  · intro view i w
    simp only [joined_pool]
    split
    next =>
      rw [lookup_poolWith]
      split
      next same =>
        intro found
        obtain rfl := Option.some.inj found
        exact same.symm
      next => exact invariant.keyed m.view i w
    next => exact invariant.keyed view i w
  · intro entry member
    simp only [kept entry member]
    exact invariant.built entry member
  · intro entry member
    simp only [kept entry member]
    exact invariant.listed entry member
  · intro entry member
    simp only [kept entry member]
    exact invariant.quorum entry member

@[simp] theorem certify_pool (m : SyncHS) (view : Nat) : m.certify.pool view = m.pool view := rfl

theorem certify_certified (m : SyncHS) (view : Nat) :
    m.certify.certified view ↔ view = m.view ∨ m.certified view := by
  simp only [SyncHS.certify, SyncHS.certified, lookup_insert]
  split <;> simp_all

theorem PoolInvariant.certify {m : SyncHS} {stored : List (Nat × BlockCertificate)}
    {bc : BlockCertificate} (invariant : PoolInvariant p ⟨m,stored⟩)
    (uncertified : ¬m.certified m.view) (opened : m.view ∈ m.receivedVotes.keys)
    (built : BuiltFrom p (m.pool m.view) bc)
    (listed : (m.pool m.view).keys ⊆ (row m.reputationMap m.view).keys)
    (quorum : m.getCertBenchMark m.view < m.weight (m.pool m.view).keys) :
    PoolInvariant p ⟨m.certify,stored ++ [(m.view,bc)]⟩ := by
  refine ⟨?_,invariant.keyed,?_,?_,?_,?_,?_⟩
  · intro view set
    rcases (certify_certified m view).mp set with rfl | set
    · exact opened
    · exact invariant.opened view set
  · intro entry member
    rw [certify_certified]
    rcases List.mem_append.mp member with old | new
    · exact Or.inr (invariant.latched entry old)
    · obtain rfl := List.mem_singleton.mp new
      exact Or.inl rfl
  · simp only [List.map_append, List.map_cons, List.map_nil]
    refine List.nodup_append.mpr ⟨invariant.once,List.nodup_singleton _,?_⟩
    intro view old view' new same
    obtain ⟨entry,member,rfl⟩ := List.mem_map.mp old
    obtain rfl := List.mem_singleton.mp new
    exact uncertified (same ▸ invariant.latched entry member)
  all_goals
    intro entry member
    rcases List.mem_append.mp member with old | new
  · exact invariant.built entry old
  · obtain rfl := List.mem_singleton.mp new
    exact built
  · exact invariant.listed entry old
  · obtain rfl := List.mem_singleton.mp new
    exact listed
  · exact invariant.quorum entry old
  · obtain rfl := List.mem_singleton.mp new
    exact quorum

theorem PoolInvariant.vote {n n' : SyncHS} {stored : List (Nat × BlockCertificate)} {v : ProtoVote}
    {order : List Nat} {effect : Effect} (invariant : PoolInvariant p ⟨n,stored⟩)
    (step : VoteStep p cfg n v order n' effect) :
    PoolInvariant p ⟨n',stored ++ effect.jobs.filterMap Job.storedCert⟩ := by
  cases step with
  | foreign d _ _ => simpa [List.filterMap_cons,Job.storedCert] using invariant
  | dropped d _ _ _ => simpa [Effect.none] using invariant.openPool n.view
  | counted d n' effect joins counted =>
    have opened := invariant.openPool n.view
    cases counted with
    | late _ =>
      simp only [Effect.none, List.filterMap_nil, List.append_nil]
      exact ⟨opened.opened,opened.keyed,opened.latched,opened.once,opened.built,opened.listed,opened.quorum⟩
    | pooled uncertified _ _ =>
      simpa [Effect.none] using opened.join v uncertified
    | certifies uncertified listed quorum =>
      have joined := opened.join v uncertified
      have whole : (((n.openPool n.view).credit v).setPool ((n.openPool n.view).poolWith v)).pool
          (n.openPool n.view).view = (n.openPool n.view).poolWith v := by
        rw [joined_pool, if_pos rfl]
      refine joined.certify uncertified (by simp [SyncHS.setPool,SyncHS.credit]) ⟨?_,?_⟩ ?_ ?_
      · exact ⟨order,_,_,congrArg (fun pool => newCert (poolVotes pool order) _ _) whole.symm⟩
      · refine ⟨v.getVoter,v,d,?_,joins.data,newCert_data _ _ _⟩
        exact (congrArg (Finmap.lookup v.getVoter) whole).trans
          ((lookup_poolWith _ v _).trans (if_pos rfl))
      · intro i member
        rw [Finmap.mem_keys, ← Finmap.lookup_isSome]
        exact listed i (whole ▸ member)
      · exact whole.symm ▸ quorum

theorem PoolInvariant.step {s t : VoteRun} {e : VoteEvent} (invariant : PoolInvariant p s)
    (enabled : s.enabled e) (moved : s.step p cfg e = some t) : PoolInvariant p t := by
  cases e with
  | vote v order =>
    obtain ⟨⟨n',effect⟩,handled,rfl⟩ := Option.map_eq_some_iff.mp moved
    exact invariant.vote (voteHandler_cases handled)
  | enter view leader reputations =>
    obtain rfl := Option.some.inj moved
    have kept (entry) (member : entry ∈ s.stored) :
        row reputations entry.1 = row s.node.reputationMap entry.1 :=
      enabled entry.1 (invariant.opened _ (invariant.latched entry member))
    refine ⟨invariant.opened,invariant.keyed,invariant.latched,invariant.once,invariant.built,?_,?_⟩
    · intro entry member
      simp only [kept entry member]
      exact invariant.listed entry member
    · intro entry member
      simp only [kept entry member]
      exact invariant.quorum entry member

theorem PoolInvariant.run {start s : VoteRun} {trace : List VoteEvent} (fresh : start.Fresh)
    (run : (voteMachine p cfg).Run start trace s) : PoolInvariant p s :=
  run.invariant (.fresh fresh) fun _ _ _ invariant enabled moved => invariant.step enabled moved

end Preservation

/-! ## One certificate per view, with a majority behind it -/

theorem poolVotes_voters (pool : Map Nat ProtoVote) (order : List Nat)
    (keyed : ∀ i v, pool.lookup i = some v → v.getVoter = i) :
    (poolVotes pool order).map ProtoVote.getVoter = traversal pool order := by
  have present (i : Nat) (member : i ∈ traversal pool order) : ∃ v, pool.lookup i = some v :=
    (mem_keys_iff pool i).mp ((mem_traversal pool order i).mp member)
  have voters (ids : List Nat) (within : ∀ i ∈ ids, ∃ v, pool.lookup i = some v) :
      (ids.filterMap pool.lookup).map ProtoVote.getVoter = ids := by
    induction ids with
    | nil => rfl
    | cons i rest ih =>
      obtain ⟨v,found⟩ := within i List.mem_cons_self
      simp only [List.filterMap_cons, found, List.map_cons, keyed i v found]
      rw [ih fun j member => within j (List.mem_cons_of_mem i member)]
  exact voters _ present

theorem BuiltFrom.signers {p : Platform} {pool : Map Nat ProtoVote} {bc : BlockCertificate}
    (built : BuiltFrom p pool bc) (keyed : ∀ i v, pool.lookup i = some v → v.getVoter = i) :
    bc.getSigners.Nodup ∧ bc.getSigners.toFinset = pool.keys := by
  obtain ⟨order,hash,view,rfl⟩ := built.votes
  rw [BlockCertificate.getSigners, newCert_ids, poolVotes_voters pool order keyed]
  exact traversal_enumerates pool order

section Runs

variable {p : Platform} {cfg cfg' : NodeConfig} {start start' s s' : VoteRun}
  {trace trace' : List VoteEvent}

theorem PoolInvariant.majority (invariant : PoolInvariant p s) (entry : Nat × BlockCertificate)
    (member : entry ∈ s.stored) : entry.2.getSigners.Nodup ∧
      entry.2.getSigners.toFinset ⊆ (row s.node.reputationMap entry.1).keys ∧
      total (row s.node.reputationMap entry.1) / 2 <
        sumAt (row s.node.reputationMap entry.1) entry.2.getSigners.toFinset := by
  obtain ⟨distinct,whole⟩ := (invariant.built entry member).signers (invariant.keyed entry.1)
  rw [whole]
  refine ⟨distinct,invariant.listed entry member,?_⟩
  simpa [div_eq_mul_inv] using invariant.quorum entry member

/-- Whatever votes arrive while the view changes, the handler stores one certificate per
view at most, with distinct signers that hold more than half of the reputation; so two
nodes with the same positive reputations cannot form certificates without a common signer. -/
theorem certificates_are_majorities (fresh : start.Fresh) (fresh' : start'.Fresh)
    (run : (voteMachine p cfg).Run start trace s) (run' : (voteMachine p cfg').Run start' trace' s') :
    (s.stored.map Prod.fst).Nodup ∧
    (∀ entry ∈ s.stored, entry.2.getSigners.Nodup ∧
      entry.2.getSigners.toFinset ⊆ (row s.node.reputationMap entry.1).keys ∧
      total (row s.node.reputationMap entry.1) / 2 <
        sumAt (row s.node.reputationMap entry.1) entry.2.getSigners.toFinset) ∧
    ∀ view bc bc', (view,bc) ∈ s.stored → (view,bc') ∈ s'.stored →
      row s.node.reputationMap view = row s'.node.reputationMap view →
      (∀ i x, (row s.node.reputationMap view).lookup i = some x → 0 < x) →
      ∃ i, i ∈ bc.getSigners ∧ i ∈ bc'.getSigners := by
  have invariant := PoolInvariant.run fresh run
  have invariant' := PoolInvariant.run fresh' run'
  refine ⟨invariant.once,invariant.majority,?_⟩
  intro view bc bc' stored stored' agree positive
  obtain ⟨_,within,major⟩ := invariant.majority _ stored
  obtain ⟨_,within',major'⟩ := invariant'.majority _ stored'
  simp only [← agree] at within' major'
  have nonneg (i : Nat) (member : i ∈ (row s.node.reputationMap view).keys) :
      0 ≤ ((row s.node.reputationMap view).lookup i).getD 0 := by
    obtain ⟨x,found⟩ := (mem_keys_iff _ i).mp member
    simpa [found] using (positive i x found).le
  obtain ⟨i,common⟩ := WeightedQuorum.majorities_meet _ _ _ _ within within' nonneg major major'
  simp only [Finset.mem_inter, List.mem_toFinset] at common
  exact ⟨i,common⟩

def VoteRun.ofThree (id : Nat) : VoteRun :=
  ⟨SyncHS.init.initialReputationMap (.complete 3 1 true .plain id),[]⟩

def fives : Bytes := List.replicate 32 5

def sixes : Bytes := List.replicate 32 6

def voteOf (i : Nat) (blockHash : Bytes) (view : Nat) (order : List Nat) : VoteEvent :=
  .vote (signVote transparent (.complete 3 1 true .plain i) ⟨blockHash,view,0⟩) order

theorem VoteRun.ofThree_fresh (id : Nat) : (ofThree id).Fresh := ⟨rfl,rfl,rfl⟩

theorem certificates_are_majorities_of_three : ∃ s s' : VoteRun, ∃ bc bc',
    (1,bc) ∈ s.stored ∧ (1,bc') ∈ s'.stored ∧ ∃ i, i ∈ bc.getSigners ∧ i ∈ bc'.getSigners := by
  let reputations := row (VoteRun.ofThree 0).node.reputationMap 1
  obtain ⟨s,run,views,same⟩ := Guarded.Machine.reaches
    (fun s : VoteRun => s.stored.map Prod.fst = [1] ∧ row s.node.reputationMap 1 = reputations)
    (show ((voteMachine transparent (.complete 3 1 true .plain 0)).replay
      [voteOf 1 fives 1 [1],voteOf 2 fives 1 [1,2]] (.ofThree 0)).any _ = true by decide +kernel)
  obtain ⟨s',run',views',same'⟩ := Guarded.Machine.reaches
    (fun s : VoteRun => s.stored.map Prod.fst = [1] ∧ row s.node.reputationMap 1 = reputations)
    (show ((voteMachine transparent (.complete 3 1 true .plain 1)).replay
      [voteOf 0 fives 1 [0],voteOf 1 fives 1 [0,1]] (.ofThree 1)).any _ = true by decide +kernel)
  obtain ⟨⟨view,bc⟩,stored,rfl⟩ := List.mem_map.mp (views ▸ List.mem_singleton_self 1)
  obtain ⟨⟨view',bc'⟩,stored',rfl⟩ := List.mem_map.mp (views' ▸ List.mem_singleton_self 1)
  have positive : ∀ i ∈ reputations.keys, 0 < (reputations.lookup i).getD 0 := by decide +kernel
  refine ⟨s,s',bc,bc',stored,stored',?_⟩
  apply (certificates_are_majorities (VoteRun.ofThree_fresh 0) (VoteRun.ofThree_fresh 1) run run').2.2 1 bc
    bc' stored stored' (same.trans same'.symm)
  intro i x found
  rw [same] at found
  simpa [found] using positive i ((mem_keys_iff _ i).mpr ⟨x,found⟩)

end Runs

/-! ## Which block the votes of a certificate are for -/

/-- Every stored certificate holds, for each signer, the signature of a vote of that
signer whose signed hash and view are those of the certificate, and the view is the
index under which it is stored. -/
def CertifiesOneBlock (s : VoteRun) : Prop :=
  ∀ entry ∈ s.stored, entry.2.data.view = entry.1 ∧ ∀ i ∈ entry.2.getSigners, ∃ v d,
    (s.node.pool entry.1).lookup i = some v ∧ v.data = some d ∧
    entry.2.getSignatureFromID i = some v.getSignature ∧
    d.blockHash = entry.2.data.blockHash ∧ d.view = entry.2.data.view

/-- A vote that is about to join the pool names a hash and the view of the pool, and the
votes in the pool name the same hash. -/
def FitsPool (p : Platform) (cfg : NodeConfig) (s : VoteRun) : VoteEvent → Prop
  | .vote v _ => ∀ d ∈ v.data, Joins p cfg s.node v d → ¬s.node.certified s.node.view →
      d.view = s.node.view ∧ (p.toHash d.blockHash).bytes = d.blockHash ∧
      ∀ i ∈ (s.node.pool s.node.view).keys, (((s.node.pool s.node.view).lookup i).bind
        ProtoVote.data).map ProtoVoteData.blockHash = some d.blockHash
  | .enter _ _ _ => True

instance (p : Platform) (cfg : NodeConfig) (s : VoteRun) (e : VoteEvent) :
    Decidable (FitsPool p cfg s e) :=
  match e with
  | .vote v _ => inferInstanceAs (Decidable (∀ d ∈ v.data, _))
  | .enter _ _ _ => isTrue trivial

/-- A vote in a pool with the hash and the view it is signed for. -/
def Names (p : Platform) (pool : Map Nat ProtoVote) (i : Nat) (hash : Bytes) (view : Nat) : Prop :=
  ∃ v d, pool.lookup i = some v ∧ v.data = some d ∧ d.blockHash = hash ∧ d.view = view ∧
    (p.toHash hash).bytes = hash

/-- All votes of a pool name one hash and the view of the pool. -/
def Uniform (p : Platform) (pool : Map Nat ProtoVote) (view : Nat) : Prop :=
  ∃ hash, ∀ i ∈ pool.keys, Names p pool i hash view

section Uniformity

variable {p : Platform} {cfg : NodeConfig}

theorem VoteStep.pools {n n' : SyncHS} {v : ProtoVote} {order : List Nat} {effect : Effect}
    (step : VoteStep p cfg n v order n' effect) :
    (∀ view, n'.pool view = n.pool view) ∨
    ∃ d, Joins p cfg n v d ∧ ¬(n.openPool n.view).certified n.view ∧
      ∀ view, n'.pool view = if view = n.view then n.poolWith v else n.pool view := by
  have same : (n.openPool n.view).poolWith v = n.poolWith v := by
    simp [SyncHS.poolWith]
  cases step with
  | foreign d _ _ => exact Or.inl fun _ => rfl
  | dropped d _ _ _ => exact Or.inl fun view => openPool_pool n _ view
  | counted d n' effect joins counted =>
    cases counted with
    | late _ => exact Or.inl fun view => openPool_pool n _ view
    | pooled uncertified _ _ =>
      refine Or.inr ⟨d,joins,by simpa using uncertified,fun view => ?_⟩
      simpa [same] using joined_pool (n.openPool n.view) v view
    | certifies uncertified _ _ =>
      refine Or.inr ⟨d,joins,by simpa using uncertified,fun view => ?_⟩
      simpa [same] using joined_pool (n.openPool n.view) v view

theorem Uniform.poolWith {n : SyncHS} {v : ProtoVote} {d : ProtoVoteData} (data : v.data = some d)
    (uniform : Uniform p (n.pool n.view) n.view) (view : d.view = n.view)
    (hash : (p.toHash d.blockHash).bytes = d.blockHash)
    (agree : ∀ i ∈ (n.pool n.view).keys, (((n.pool n.view).lookup i).bind
      ProtoVote.data).map ProtoVoteData.blockHash = some d.blockHash) :
    Uniform p (n.poolWith v) n.view := by
  refine ⟨d.blockHash,fun i member => ?_⟩
  by_cases own : i = v.getVoter
  · exact ⟨v,d,(lookup_poolWith n v i).trans (if_pos own),data,rfl,view,hash⟩
  · have old : i ∈ (n.pool n.view).keys := by
      simpa [SyncHS.poolWith,own] using member
    obtain ⟨common,names⟩ := uniform
    obtain ⟨w,dw,found,data,rfl,viewed,_⟩ := names i old
    have equal : dw.blockHash = d.blockHash := by simpa [found,data] using agree i old
    exact ⟨w,dw,(lookup_poolWith n v i).trans ((if_neg own).trans found),data,equal,viewed,hash⟩

theorem Uniform.step {s t : VoteRun} {e : VoteEvent} (invariant : PoolInvariant p s)
    (uniform : ∀ view, Uniform p (s.node.pool view) view) (fits : FitsPool p cfg s e)
    (moved : s.step p cfg e = some t) : ∀ view, Uniform p (t.node.pool view) view := by
  cases e with
  | enter view leader reputations =>
    obtain rfl := Option.some.inj moved
    exact uniform
  | vote v order =>
    obtain ⟨⟨n',effect⟩,handled,rfl⟩ := Option.map_eq_some_iff.mp moved
    intro view
    rcases (voteHandler_cases handled).pools with same | ⟨d,joins,uncertified,pools⟩
    · simpa [same view] using uniform view
    · rw [openPool_certified _ _ _ (invariant.opened _)] at uncertified
      obtain ⟨viewed,hash,agree⟩ := fits d joins.data joins uncertified
      simp only [pools]
      split
      next here =>
        subst here
        exact (uniform s.node.view).poolWith joins.data viewed hash agree
      next => exact uniform view

theorem BuiltFrom.certifies {pool : Map Nat ProtoVote} {bc : BlockCertificate} {view : Nat}
    (built : BuiltFrom p pool bc) (keyed : ∀ i v, pool.lookup i = some v → v.getVoter = i)
    (uniform : Uniform p pool view) : bc.data.view = view ∧ ∀ i ∈ bc.getSigners, ∃ v d,
      pool.lookup i = some v ∧ v.data = some d ∧ bc.getSignatureFromID i = some v.getSignature ∧
      d.blockHash = bc.data.blockHash ∧ d.view = bc.data.view := by
  obtain ⟨hash,names⟩ := uniform
  obtain ⟨k,w,dw,found,data,block⟩ := built.block
  obtain ⟨w',dw',found',data',rfl,rfl,copied⟩ := names k ((mem_keys_iff pool k).mpr ⟨w,found⟩)
  obtain rfl := Option.some.inj (found.symm.trans found')
  obtain rfl := Option.some.inj (data.symm.trans data')
  refine ⟨by rw [block],fun i member => ?_⟩
  have inPool : i ∈ pool.keys := by
    rw [← (built.signers keyed).2]
    exact List.mem_toFinset.mpr member
  obtain ⟨v,d,vote,voteData,hashed,viewed,_⟩ := names i inPool
  obtain ⟨order,_,_,rfl⟩ := built.votes
  have voters := poolVotes_voters pool order keyed
  have listed : v ∈ poolVotes pool order :=
    List.mem_filterMap.mpr ⟨i,(mem_traversal pool order i).mpr inPool,vote⟩
  have distinct : ((poolVotes pool order).map ProtoVote.getVoter).Nodup :=
    voters ▸ (traversal_enumerates pool order).1
  refine ⟨v,d,vote,voteData,?_,?_,?_⟩
  · rw [← keyed i v vote]
    exact newCert_signature _ _ _ distinct v listed
  · rw [block, hashed, copied]
  · rw [block, viewed]

variable {start s : VoteRun} {trace : List VoteEvent}

/-- If every vote that joins a pool names the view of the pool and the hash of the votes
already there, every certificate is for one block. -/
theorem certifies_one_block (fresh : start.Fresh)
    (run : ((voteMachine p cfg).restrict (FitsPool p cfg)).Run start trace s) : CertifiesOneBlock s := by
  have uniform : PoolInvariant p s ∧ ∀ view, Uniform p (s.node.pool view) view := by
    refine run.invariant (I := fun s => PoolInvariant p s ∧ ∀ view, Uniform p (s.node.pool view) view)
      ⟨.fresh fresh,fun view => ⟨[],fun i member => ?_⟩⟩ ?_
    · simp [SyncHS.pool,fresh.noVotes] at member
    · rintro s e t ⟨invariant,uniform⟩ ⟨enabled,fits⟩ moved
      exact ⟨invariant.step enabled moved,Uniform.step invariant uniform fits moved⟩
  intro entry member
  exact (uniform.1.built entry member).certifies (uniform.1.keyed entry.1) (uniform.2 entry.1)

end Uniformity

/-- Two votes for one block give a certificate. -/
theorem certifies_one_block_of_two : ∃ s : VoteRun, s.stored.length = 1 ∧ CertifiesOneBlock s := by
  obtain ⟨s,run,one⟩ := Guarded.Machine.reaches (fun s : VoteRun => s.stored.length = 1)
    (show (((voteMachine transparent (.complete 3 1 true .plain 0)).restrict
      (FitsPool transparent (.complete 3 1 true .plain 0))).replay
      [voteOf 1 emptyHash.bytes 1 [1],voteOf 2 emptyHash.bytes 1 [1,2]] (.ofThree 0)).any _ = true by
        decide +kernel)
  exact ⟨s,one,certifies_one_block (VoteRun.ofThree_fresh 0) run⟩

/-- Two votes for different blocks give a certificate for the second one, with the first
voter among its signers. -/
theorem mixed_votes_certify : ∃ trace s,
    (voteMachine transparent (.complete 3 1 true .plain 0)).Run (.ofThree 0) trace s ∧
    ¬CertifiesOneBlock s := by
  refine ⟨[voteOf 1 fives 1 [1],voteOf 2 sixes 1 [1,2]],?_⟩
  obtain ⟨s,run,signers,votes,hashes⟩ := Guarded.Machine.reaches (fun s : VoteRun =>
      s.stored.map (fun entry => (entry.1,entry.2.getSigners)) = [(1,[1,2])] ∧
      ((s.node.pool 1).lookup 1).bind ProtoVote.data = some ⟨fives,1,0⟩ ∧
      s.stored.map (fun entry => entry.2.data.blockHash.head?) = [some 6])
    (show ((voteMachine transparent (.complete 3 1 true .plain 0)).replay
      [voteOf 1 fives 1 [1],voteOf 2 sixes 1 [1,2]] (.ofThree 0)).any _ = true by decide +kernel)
  refine ⟨s,run,fun uniform => ?_⟩
  obtain ⟨⟨view,bc⟩,stored,pair⟩ := List.mem_map.mp (signers ▸ List.mem_singleton_self _)
  obtain ⟨rfl,listed⟩ := Prod.mk.inj pair
  obtain ⟨v,d,vote,data,_,hash,_⟩ := (uniform _ stored).2 1 (by simp [listed])
  have first : d = ⟨fives,1,0⟩ := by simpa [vote,data] using votes
  have second : bc.data.blockHash.head? = some 6 := by
    have member := List.mem_map_of_mem (f := fun entry : Nat × BlockCertificate =>
      entry.2.data.blockHash.head?) stored
    rw [hashes] at member
    exact List.mem_singleton.mp member
  rw [← hash, first] at second
  simp [fives] at second

end ReputationSMR
