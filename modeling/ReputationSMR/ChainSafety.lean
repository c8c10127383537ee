import Mathlib.Order.Interval.Finset.Nat
import ReputationSMR.ChainSteps

/-! Safety of one node's chain among arbitrary messages. Each property holds in every run in which
the forwards, votes and certificates that a node uses meet a condition that the code does not
check, and fails in a run of a node that meets a Byzantine leader or lossy links. -/
namespace ReputationSMR

open Wire FiniteMap

/-! ## Well-formed chains -/

/-- The hash under which a height is known; below the first block it is the empty hash. -/
def BlockChain.hashAt (p : Platform) (bc : BlockChain) (height : Nat) : Option Hash :=
  if height = 0 then some emptyHash else (bc.blocksByHeight.lookup height).map (ExtBlock.getBlockHash p)

structure BlockAt (p : Platform) (bc : BlockChain) (h : Nat) (b : ExtBlock) : Prop where
  found : bc.blocksByHeight.lookup h = some b
  height : b.getHeight = h
  parent : bc.hashAt p (h - 1) = some (b.getParentHash p)
  byHash : bc.blocksByHash.lookup (b.getBlockHash p) = some b

/-- Every height up to the head has a block of that height whose parent is the block
below it and which its hash leads back to. -/
def BlockChain.WellFormed (p : Platform) (bc : BlockChain) : Prop :=
  ∀ h, 1 ≤ h → h ≤ bc.head → ∃ b, BlockAt p bc h b

/-- A block for the height after the head, on top of it, with a hash that is not in use. -/
structure Continues (p : Platform) (bc : BlockChain) (b : ExtBlock) : Prop where
  height : b.getHeight = bc.head + 1
  parent : bc.hashAt p bc.head = some (b.getParentHash p)
  unused : ∀ h ∈ Finset.Icc 1 bc.head, bc.hashAt p h ≠ some (b.getBlockHash p)

instance (p : Platform) (bc : BlockChain) (b : ExtBlock) : Decidable (Continues p bc b) :=
  decidable_of_iff (b.getHeight = bc.head + 1 ∧ bc.hashAt p bc.head = some (b.getParentHash p) ∧
      ∀ h ∈ Finset.Icc 1 bc.head, bc.hashAt p h ≠ some (b.getBlockHash p))
    ⟨fun ⟨height,parent,unused⟩ => ⟨height,parent,unused⟩,
      fun ⟨height,parent,unused⟩ => ⟨height,parent,unused⟩⟩

section Chains

variable {p : Platform} {bc : BlockChain} {b : ExtBlock}

theorem hashAt_extend (p : Platform) (bc : BlockChain) (b : ExtBlock) (height : Nat)
    (below : height ≠ b.getHeight) : (bc.extend p b).hashAt p height = bc.hashAt p height := by
  simp only [BlockChain.hashAt, BlockChain.extend, BlockChain.store_byHeight, if_neg below]

theorem BlockChain.WellFormed.extend (wellFormed : bc.WellFormed p) (continues : Continues p bc b) :
    (bc.extend p b).WellFormed p := by
  intro height positive within
  have atMost : height ≤ bc.head + 1 := within
  by_cases top : height = bc.head + 1
  · subst top
    refine ⟨b,?_,continues.height,?_,?_⟩
    · rw [BlockChain.extend, BlockChain.store_byHeight, continues.height, if_pos rfl]
    · rw [hashAt_extend p bc b _ (by rw [continues.height]; omega)]
      exact continues.parent
    · rw [BlockChain.extend, BlockChain.store_byHash, if_pos rfl]
  · have old : height ≤ bc.head := by omega
    obtain ⟨a,found,heightA,parent,byHash⟩ := wellFormed height positive old
    have other : height ≠ b.getHeight := by rw [continues.height]; omega
    refine ⟨a,?_,heightA,?_,?_⟩
    · rw [BlockChain.extend, BlockChain.store_byHeight, if_neg other]
      exact found
    · rw [hashAt_extend p bc b _ (by rw [continues.height]; omega)]
      exact parent
    · have apart : a.getBlockHash p ≠ b.getBlockHash p := by
        intro same
        apply continues.unused height (Finset.mem_Icc.mpr ⟨positive,old⟩)
        rw [BlockChain.hashAt, if_neg (by omega), found, ← same]
        rfl
      rw [BlockChain.extend, BlockChain.store_byHash, if_neg apart]
      exact byHash

end Chains

def SyncHS.CertifiesHead (p : Platform) (n : SyncHS) : Prop :=
  ∀ cert ∈ n.certMap.lookup n.bc.head, n.bc.hashAt p n.bc.head = some (cert.getBlockInfo p).1

instance (p : Platform) (n : SyncHS) : Decidable (n.CertifiesHead p) := inferInstanceAs (Decidable (∀ cert ∈ _, _))

/-- No block of the chain has the hash of a block with another header. -/
def Identifies (p : Platform) (bc : BlockChain) (b : ExtBlock) : Prop :=
  ∀ h ∈ Finset.Icc 1 bc.head, ∀ a ∈ bc.blocksByHeight.lookup h,
    a.getBlockHash p = b.getBlockHash p → a.extHeader = b.extHeader

instance (p : Platform) (bc : BlockChain) (b : ExtBlock) : Decidable (Identifies p bc b) :=
  inferInstanceAs (Decidable (∀ h ∈ _, ∀ a ∈ _, _))

/-- The condition: the header of the forward that completes a set is for the next height and on
top of the head; a block that the node builds itself is built on a certificate for the block at
the head; and a hash identifies a header. -/
def OnlyContinues (p : Platform) (cfg : NodeConfig) (node : Node) : NodeEvent → Prop
  | .work index _ => ∀ job ∈ node.pending[index]?,
      (∀ fprop ∈ job.heldForward, ∀ ep ∈ node.state.completes p cfg fprop,
        ep.extBlock.getHeight = node.state.bc.head + 1 ∧
        node.state.bc.hashAt p node.state.bc.head = some (ep.extBlock.getParentHash p)) ∧
      (job.heldForward = none → (extension p cfg node.state job).isSome → node.state.CertifiesHead p) ∧
      ∀ b ∈ extension p cfg node.state job, Identifies p node.state.bc b
  | _ => True

instance (p : Platform) (cfg : NodeConfig) (node : Node) (e : NodeEvent) :
    Decidable (OnlyContinues p cfg node e) :=
  match e with
  | .work index _ => inferInstanceAs (Decidable (∀ job ∈ node.pending[index]?, _))
  | .connect | .command _ | .receive _ | .callback => isTrue trivial

section Runs

variable {p : Platform} {cfg : NodeConfig} {node node' : Node} {e : NodeEvent} {trace : List NodeEvent} {n n' : SyncHS}
  {job : Job} {b : ExtBlock}

/-- The blocks that a node builds itself are for the next height, on top of the block that the
certificate of the head is for. -/
theorem extension_built (extends_ : extension p cfg n job = some b) (own : job.heldForward = none) :
    b.getHeight = n.bc.head + 1 ∧ ∃ cert, n.certMap.lookup n.bc.head = some cert ∧
      b.getParentHash p = p.toHash (cert.getBlockInfo p).1.bytes := by
  have built {make : BlockCertificate → ExtBlock} (height : ∀ cert, (make cert).getHeight = n.bc.head + 1)
      (parent : ∀ cert, (make cert).getParentHash p = p.toHash (cert.getBlockInfo p).1.bytes)
      (made : (n.certMap.lookup n.bc.head).map make = some b) : b.getHeight = n.bc.head + 1 ∧
        ∃ cert, n.certMap.lookup n.bc.head = some cert ∧ b.getParentHash p = p.toHash (cert.getBlockInfo p).1.bytes := by
    obtain ⟨cert,found,rfl⟩ := Option.map_eq_some_iff.mp made
    exact ⟨height cert,cert,found,parent cert⟩
  cases job with
  | round =>
    simp only [extension, SyncHS.nextEmptyBlock, SyncHS.nextBlock] at extends_
    split at extends_
    next => exact built (fun _ => rfl) (fun _ => rfl) extends_
    next =>
      split at extends_
      next => exact built (fun _ => rfl) (fun _ => rfl) extends_
      next => contradiction
  | eqEvidenceChannel evidence =>
    simp only [extension, SyncHS.nextEmptyBlock] at extends_
    split at extends_
    next => exact built (fun _ => rfl) (fun _ => rfl) extends_
    next => contradiction
  | proposeChannel fprop => contradiction
  | _ => contradiction

theorem extension_forwarded {fprop : Proposal} (extends_ : extension p cfg n job = some b)
    (held : job.heldForward = some fprop) : ∃ ep, n.completes p cfg fprop = some ep ∧ ep.extBlock = b := by
  cases job with
  | proposeChannel x =>
    obtain rfl := Option.some.inj held
    exact Option.map_eq_some_iff.mp extends_
  | _ => contradiction

theorem OnlyContinues.continues {index : Nat} {order : List Nat} (copies : ∀ h : Hash, p.toHash h.bytes = h)
    (condition : OnlyContinues p cfg node (.work index order)) (found : node.pending[index]? = some job)
    (wellFormed : node.state.bc.WellFormed p) (extends_ : extension p cfg node.state job = some b) :
    Continues p node.state.bc b := by
  obtain ⟨forwards,builds,identifies⟩ := condition job found
  have on : b.getHeight = node.state.bc.head + 1 ∧
      node.state.bc.hashAt p node.state.bc.head = some (b.getParentHash p) := by
    cases held : job.heldForward with
    | some fprop =>
      obtain ⟨ep,completed,rfl⟩ := extension_forwarded extends_ held
      exact forwards fprop held ep completed
    | none =>
      obtain ⟨height,cert,certified,parent⟩ := extension_built extends_ held
      refine ⟨height,?_⟩
      rw [parent, copies]
      exact builds held (by rw [extends_]; rfl) cert certified
  refine ⟨on.1,on.2,fun h inside same => ?_⟩
  obtain ⟨positive,within⟩ := Finset.mem_Icc.mp inside
  obtain ⟨a,stored,height,_,_⟩ := wellFormed h positive within
  rw [BlockChain.hashAt, if_neg (by omega), stored] at same
  -- the two blocks would have one header, but their heights differ
  have header := identifies b extends_ h inside a stored (Option.some.inj same)
  have heights : a.getHeight = b.getHeight := by rw [ExtBlock.getHeight, header, ExtBlock.getHeight]
  omega

theorem NodeStep.wellFormed (copies : ∀ h : Hash, p.toHash h.bytes = h) (step : NodeStep p cfg node e node')
    (wellFormed : node.state.bc.WellFormed p) (condition : OnlyContinues p cfg node e) :
    node'.state.bc.WellFormed p := by
  cases step with
  | outside _ _ jobs _ _ bc _ _ _ _ _ => exact bc ▸ wellFormed
  | worked index order job n' effect found ran =>
    cases ran.chain with
    | quiet bc _ _ | stored _ _ _ bc _ _ | certified _ _ _ _ _ bc _ _ _ => exact bc ▸ wellFormed
    | extended b extends_ bc _ _ | emptied b extends_ bc _ _ =>
      exact bc ▸ wellFormed.extend (condition.continues copies found wellFormed extends_)
  | calledBack n' effect ran => cases ran <;> exact wellFormed

/-- In a run in which the headers of completed forwards are for the next height and on top of the
head, the node builds on certificates for the block at the head, and hashes identify headers, every
state has a well-formed chain. -/
theorem wellFormed_of_onlyContinues (copies : ∀ h : Hash, p.toHash h.bytes = h)
    (run : ((nodeMachine p cfg).restrict (OnlyContinues p cfg)).Run .init trace node) :
    node.state.bc.WellFormed p := by
  refine run.invariant (I := fun node => node.state.bc.WellFormed p) ?_ ?_
  · intro height positive within
    exact absurd (Nat.le_trans positive within) (by decide)
  · intro s e t wellFormed ⟨_,condition⟩ moved
    exact (nodeMachine_step moved).wellFormed copies wellFormed condition

end Runs

/-- The first leader of a network of three proposes after a client command. -/
theorem wellFormed_of_leader : ∃ node : Node, node.state.bc.head = 1 ∧
    node.state.bc.WellFormed transparent := by
  obtain ⟨node,run,head⟩ := Guarded.Machine.reaches (fun node : Node => node.state.bc.head = 1)
    (show (((nodeMachine transparent (.complete 3 1 true .plain 0)).restrict
      (OnlyContinues transparent (.complete 3 1 true .plain 0))).replay
      [.connect,.command [1],.work 0 []] .init).any _ = true by decide +kernel)
  exact ⟨node,head,wellFormed_of_onlyContinues copyHash_bytes run⟩

def proposalAt (height : Nat) : Proposal :=
  newCandidateProposal transparent (.complete 3 1 true .plain 0) .init [] genesisCert height []

def forwardsOf (prop : Proposal) : List NodeEvent :=
  [.connect,.receive (.prop prop),.work 0 [],
    .receive (.prop (signForward transparent (.complete 3 1 true .plain 2) prop)),.work 0 [],.work 0 []]

/-- A block that names height five becomes the first block of the chain, and there is no
block at height one. -/
theorem far_block_is_appended : ∃ node,
    (nodeMachine transparent (.complete 3 1 true .plain 1)).Run .init (forwardsOf (proposalAt 5)) node ∧
    ¬node.state.bc.WellFormed transparent := by
  obtain ⟨node,run,head,absent⟩ := Guarded.Machine.reaches
    (fun node : Node => node.state.bc.head = 1 ∧ node.state.bc.blocksByHeight.lookup 1 = none)
    (show ((nodeMachine transparent (.complete 3 1 true .plain 1)).replay (forwardsOf (proposalAt 5))
      .init).any _ = true by decide +kernel)
  refine ⟨node,run,fun wellFormed => ?_⟩
  obtain ⟨b,found,_⟩ := wellFormed 1 (Nat.le_refl 1) (Nat.le_of_eq head.symm)
  rw [absent] at found
  contradiction

/-! ## What a callback acknowledges -/

/-- When the callback finds a certificate for its view and no flag is set, the block at
the head exists, belongs to the view, is acknowledged for the first time and is the block
of the certificate. -/
def CommitsCoherently (p : Platform) (node : Node) : Prop :=
  node.state.withholdingProposalInject = false → node.state.equivocatingProposalInject = false →
  ∀ cert, node.state.certMap.lookup node.state.view = some cert →
    ∃ b, node.state.bc.blocksByHeight.lookup node.state.bc.head = some b ∧
      b.getHeight = node.state.view ∧ (∀ entry ∈ node.acked, entry.2 ≠ b) ∧
      cert.data.blockHash = (b.getBlockHash p).bytes

/-- The condition: the chain is extended once per view, a forward that completes a set is for the
height of the view, and a vote that is pooled is for the block that the node has there. -/
def OneBlockPerView (p : Platform) (cfg : NodeConfig) (node : Node) : NodeEvent → Prop
  | .work index _ => ∀ job ∈ node.pending[index]?,
      ((extension p cfg node.state job).isSome → node.state.bc.head + 1 = node.state.view) ∧
      (∀ fprop ∈ job.heldForward, ∀ ep ∈ node.state.completes p cfg fprop,
        ep.extBlock.getHeight = node.state.view) ∧
      ∀ v ∈ job.heldVote, ∀ d ∈ v.data, Joins p cfg node.state v d →
        node.state.bc.hashAt p node.state.view = some (p.toHash d.blockHash)
  | _ => True

instance (p : Platform) (cfg : NodeConfig) (node : Node) (e : NodeEvent) :
    Decidable (OneBlockPerView p cfg node e) :=
  match e with
  | .work index _ => inferInstanceAs (Decidable (∀ job ∈ node.pending[index]?, _))
  | .connect | .command _ | .receive _ | .callback => isTrue trivial

/-- The node has or is about to store a certificate for a view. -/
inductive HasCert (certs : Map Nat BlockCertificate) (pending : List Job) (view : Nat) (cert : BlockCertificate) : Prop where
  | stored : certs.lookup view = some cert → HasCert certs pending view cert
  | pending (job : Job) : job ∈ pending → job.storedCert = some (view,cert) → HasCert certs pending view cert

/-- The chain has blocks up to the view at most, and a certificate for the view only together with
the block that it is for. -/
structure CommitInvariant (p : Platform) (node : Node) : Prop where
  positive : 1 ≤ node.state.view
  head : node.state.bc.head ≤ node.state.view
  indexed : ∀ h b, node.state.bc.blocksByHeight.lookup h = some b → b.getHeight = h ∧ h ≤ node.state.bc.head
  acked : ∀ entry ∈ node.acked, entry.2.getHeight < node.state.view
  certs : ∀ view cert, HasCert node.state.certMap node.pending view cert → view ≤ node.state.view
  current : ∀ cert, HasCert node.state.certMap node.pending node.state.view cert → node.state.bc.head = node.state.view ∧
    ∃ b, node.state.bc.blocksByHeight.lookup node.state.view = some b ∧ cert.data.blockHash = (b.getBlockHash p).bytes

section Commits

variable {p : Platform} {cfg : NodeConfig} {node node' : Node} {trace : List NodeEvent}

theorem CommitInvariant.initial (p : Platform) : CommitInvariant p .init := by
  have genesis (view : Nat) (cert : BlockCertificate) (has : HasCert Node.init.state.certMap Node.init.pending view cert) :
      view = 0 := by
    cases has with
    | stored found =>
      by_contra other
      have none : (Finmap.singleton 0 genesisCert : Map Nat BlockCertificate).lookup view = none := by
        rw [Finmap.lookup_eq_none, Finmap.mem_singleton]
        exact other
      exact absurd (found.symm.trans none) (by simp)
    | pending job member _ => exact absurd member List.not_mem_nil
  refine ⟨le_rfl,Nat.zero_le _,fun h b found => ?_,by simp [Node.init],fun view cert has => ?_,fun cert has => ?_⟩
  · have none : Node.init.state.bc.blocksByHeight.lookup h = none := Finmap.lookup_empty h
    exact absurd (found.symm.trans none) (by simp)
  · rw [genesis view cert has]
    exact Nat.zero_le _
  · exact absurd (genesis _ cert has) (by decide)

theorem CommitInvariant.same (invariant : CommitInvariant p node) (bc : node'.state.bc = node.state.bc)
    (view : node'.state.view = node.state.view) (acked : node'.acked = node.acked)
    (certs : ∀ v cert, HasCert node'.state.certMap node'.pending v cert → HasCert node.state.certMap node.pending v cert) :
    CommitInvariant p node' := by
  refine ⟨view ▸ invariant.positive,by rw [bc, view]; exact invariant.head,bc ▸ invariant.indexed,
    by rw [acked, view]; exact invariant.acked,fun v cert has => ?_,fun cert has => ?_⟩
  · rw [view]
    exact invariant.certs v cert (certs v cert has)
  · rw [view] at has ⊢
    rw [bc]
    exact invariant.current cert (certs _ cert has)

theorem HasCert.mono {certs certs' : Map Nat BlockCertificate} {pending rest jobs : List Job} {view : Nat}
    {cert : BlockCertificate} (has : HasCert certs' (rest ++ jobs) view cert) (same : certs' = certs)
    (kept : rest ⊆ pending) (noCert : NoCert jobs) : HasCert certs pending view cert := by
  cases has with
  | stored found => exact .stored (same ▸ found)
  | pending job member stores =>
    rcases List.mem_append.mp member with old | new
    · exact .pending job (kept old) stores
    · exact absurd (stores.symm.trans (noCert job new)) (by simp)

theorem HasCert.inserted {certs certs' : Map Nat BlockCertificate} {pending rest jobs : List Job} {view height : Nat}
    {cert new : BlockCertificate} (has : HasCert certs' (rest ++ jobs) view cert) (same : certs' = certs.insert height new)
    (kept : rest ⊆ pending) (noCert : NoCert jobs) : HasCert certs pending view cert ∨ view = height ∧ cert = new := by
  cases has with
  | stored found =>
    rw [same, lookup_insert] at found
    split at found
    next here => exact Or.inr ⟨here,(Option.some.inj found).symm⟩
    next => exact Or.inl (.stored found)
  | pending job member stores =>
    have waits : HasCert certs (rest ++ jobs) view cert := .pending job member stores
    exact Or.inl (waits.mono rfl kept noCert)

theorem OneBlockPerView.next {index : Nat} {order : List Nat} {job : Job} {b : ExtBlock}
    (condition : OneBlockPerView p cfg node (.work index order)) (found : node.pending[index]? = some job)
    (extends_ : extension p cfg node.state job = some b) :
    node.state.bc.head + 1 = node.state.view ∧ b.getHeight = node.state.view := by
  obtain ⟨once,forwards,_⟩ := condition job found
  have next := once (by rw [extends_]; rfl)
  refine ⟨next,?_⟩
  cases held : job.heldForward with
  | some fprop =>
    obtain ⟨ep,completed,rfl⟩ := extension_forwarded extends_ held
    exact forwards fprop held ep completed
  | none => exact (extension_built extends_ held).1.trans next

theorem CommitInvariant.certified (invariant : CommitInvariant p node) {new : BlockCertificate} {b : ExtBlock}
    (bc : node'.state.bc = node.state.bc) (view : node'.state.view = node.state.view) (acked : node'.acked = node.acked)
    (certs : ∀ v cert, HasCert node'.state.certMap node'.pending v cert →
      HasCert node.state.certMap node.pending v cert ∨ v = node.state.view ∧ cert = new)
    (found : node.state.bc.blocksByHeight.lookup node.state.view = some b)
    (hash : new.data.blockHash = (b.getBlockHash p).bytes) : CommitInvariant p node' := by
  have top : node.state.bc.head = node.state.view := le_antisymm invariant.head (invariant.indexed _ b found).2
  refine ⟨view ▸ invariant.positive,by rw [bc, view]; exact invariant.head,bc ▸ invariant.indexed,
    by rw [acked, view]; exact invariant.acked,fun v cert has => ?_,fun cert has => ?_⟩
  · rw [view]
    rcases certs v cert has with old | ⟨same,_⟩
    · exact invariant.certs v cert old
    · exact same.le
  · rw [view] at has ⊢
    rw [bc]
    rcases certs _ cert has with old | ⟨_,rfl⟩
    · exact invariant.current cert old
    · exact ⟨top,b,found,hash⟩

theorem CommitInvariant.extended (invariant : CommitInvariant p node) {b : ExtBlock}
    (next : node.state.bc.head + 1 = node.state.view) (height : b.getHeight = node.state.view)
    (bc : node'.state.bc = node.state.bc.extend p b) (view : node'.state.view = node.state.view)
    (acked : node'.acked = node.acked)
    (certs : ∀ v cert, HasCert node'.state.certMap node'.pending v cert →
      HasCert node.state.certMap node.pending v cert ∨ v = node.state.view ∧ cert.data.blockHash = (b.getBlockHash p).bytes) :
    CommitInvariant p node' := by
  have head : node'.state.bc.head = node.state.view := by
    rw [bc]
    exact next
  have stored : node'.state.bc.blocksByHeight.lookup node.state.view = some b := by
    rw [bc, BlockChain.extend, BlockChain.store_byHeight, if_pos height.symm]
  refine ⟨view ▸ invariant.positive,by rw [head, view],fun h a found => ?_,by rw [acked, view]; exact invariant.acked,
    fun v cert has => ?_,fun cert has => ?_⟩
  · rw [head]
    rw [bc, BlockChain.extend, BlockChain.store_byHeight] at found
    split at found
    next here =>
      obtain rfl := Option.some.inj found
      exact ⟨here.symm,(here.trans height).le⟩
    next =>
      obtain ⟨same,within⟩ := invariant.indexed h a found
      exact ⟨same,by omega⟩
  · rw [view]
    rcases certs v cert has with old | ⟨same,_⟩
    · exact invariant.certs v cert old
    · exact same.le
  · rw [view] at has ⊢
    rcases certs _ cert has with old | ⟨_,hash⟩
    · have := (invariant.current cert old).1
      omega
    · exact ⟨head,b,stored,hash⟩

theorem CommitInvariant.worked {index : Nat} {order : List Nat} {job : Job} {n' : SyncHS} {effect : Effect}
    (invariant : CommitInvariant p node) (found : node.pending[index]? = some job)
    (step : JobStep p cfg node.state job n' effect) (condition : OneBlockPerView p cfg node (.work index order)) :
    CommitInvariant p ⟨n',node.pending.eraseIdx index ++ effect.jobs,node.acked⟩ := by
  obtain ⟨view,_,chain⟩ := step
  have kept : node.pending.eraseIdx index ⊆ node.pending := List.eraseIdx_subset
  cases chain with
  | quiet bc certMap noCert => exact invariant.same bc view rfl fun v cert has => has.mono certMap kept noCert
  | stored new height held bc certMap noCert =>
    subst held
    refine invariant.same bc view rfl fun v cert has => ?_
    rcases has.inserted certMap kept noCert with old | ⟨rfl,rfl⟩
    · exact old
    · exact .pending _ (List.mem_of_getElem? found) rfl
  | certified v d new held joins bc certMap data jobs =>
    subst held
    have hashed := (condition _ found).2.2 v rfl d joins.data joins
    rw [BlockChain.hashAt, if_neg (Nat.ne_of_gt invariant.positive)] at hashed
    obtain ⟨b,stored,same⟩ := Option.map_eq_some_iff.mp hashed
    refine invariant.certified bc view rfl (fun w cert has => ?_) stored (show new.data.blockHash = _ by rw [data, same])
    rw [jobs] at has
    cases has with
    | stored lookup => exact Or.inl (.stored (certMap ▸ lookup))
    | pending other member stores =>
      rcases List.mem_append.mp member with old | last
      · exact Or.inl (.pending other (kept old) stores)
      · obtain rfl := List.mem_singleton.mp last
        obtain ⟨rfl,rfl⟩ := Prod.mk.inj (Option.some.inj stores)
        exact Or.inr ⟨rfl,rfl⟩
  | extended b extends_ bc certMap noCert =>
    obtain ⟨next,height⟩ := condition.next found extends_
    exact invariant.extended next height bc view rfl fun v cert has => Or.inl (has.mono certMap kept noCert)
  | emptied b extends_ bc certMap noCert =>
    obtain ⟨next,height⟩ := condition.next found extends_
    refine invariant.extended next height bc view rfl fun v cert has => ?_
    exact (has.inserted certMap kept noCert).imp_right fun ⟨here,new⟩ => ⟨here,new ▸ rfl⟩

theorem CommitInvariant.calledBack {n' : SyncHS} {effect : Effect} (invariant : CommitInvariant p node)
    (step : CallbackStep p cfg { node.state with timers := node.state.timers - 1 } n' effect) :
    CommitInvariant p ⟨n',node.pending,node.acked ++ effect.acks.map fun b => (node.state.view,b)⟩ := by
  cases step with
  | kept counters _ => exact invariant.same rfl rfl (List.append_nil _) fun _ _ has => has
  | advanced b counters _ found =>
    refine ⟨Nat.le_add_left 1 _,Nat.le_succ_of_le invariant.head,invariant.indexed,fun entry member => ?_,
      fun v cert has => Nat.le_succ_of_le (invariant.certs v cert has),fun cert has => ?_⟩
    · rcases List.mem_append.mp member with earlier | new
      · exact Nat.lt_succ_of_lt (invariant.acked entry earlier)
      · obtain rfl := List.mem_singleton.mp new
        have height := (invariant.indexed _ b found).1
        exact Nat.lt_succ_of_le (height ▸ invariant.head)
    · exact absurd (invariant.certs _ cert has) (Nat.not_succ_le_self _)

theorem CommitInvariant.step {e : NodeEvent} (invariant : CommitInvariant p node) (step : NodeStep p cfg node e node')
    (condition : OneBlockPerView p cfg node e) : CommitInvariant p node' := by
  cases step with
  | outside _ _ jobs _ _ bc certMap view pending noCert acked =>
    refine invariant.same bc view acked fun v cert has => ?_
    rw [pending] at has
    exact has.mono certMap (List.Subset.refl _) noCert
  | worked index order job n' effect found ran => exact invariant.worked found ran condition
  | calledBack n' effect ran => exact invariant.calledBack ran

/-- In a run with one block per view and votes for that block only, a callback that takes the
branch of a correct block acknowledges the block of the view, which its certificate is for, once. -/
theorem commits_coherently (run : ((nodeMachine p cfg).restrict (OneBlockPerView p cfg)).Run .init trace node) :
    CommitsCoherently p node := by
  have invariant : CommitInvariant p node := by
    refine run.invariant (I := CommitInvariant p) (.initial p) ?_
    intro s e t invariant admitted moved
    exact invariant.step (nodeMachine_step moved) admitted.2
  intro _ _ cert found
  obtain ⟨top,b,stored,hash⟩ := invariant.current cert (.stored found)
  obtain ⟨height,_⟩ := invariant.indexed _ b stored
  refine ⟨b,top ▸ stored,height,?_,hash⟩
  intro entry member same
  have earlier := invariant.acked entry member
  rw [same, height] at earlier
  exact Nat.lt_irrefl _ earlier

end Commits

def firstOfTwo : Proposal :=
  newCandidateProposal transparent (.complete 2 1 true .plain 0) .init [[1]] genesisCert 1 []

def voteForFirst : ProtoVote :=
  signVote transparent (.complete 2 1 true .plain 1)
    ⟨(transparent.doHash (marshalHeader firstOfTwo.getHeader)).bytes,1,0⟩

/-- The leader of a network of two proposes, gets the forward and the vote of the other
node and stores the certificate. -/
def leaderRound : List NodeEvent :=
  [.connect,.command [1],.work 0 [],
    .receive (.prop (signForward transparent (.complete 2 1 true .plain 1) firstOfTwo)),.work 1 [],
    .work 1 [],.receive (.vote voteForFirst),.work 1 [0,1],.work 1 []]

theorem commits_coherently_of_leader : ∃ node : Node, 0 < node.state.timers ∧
    (node.state.certMap.lookup node.state.view).isSome ∧ CommitsCoherently transparent node := by
  obtain ⟨node,run,fires,certified⟩ := Guarded.Machine.reaches
    (fun node : Node => 0 < node.state.timers ∧ (node.state.certMap.lookup node.state.view).isSome)
    (show (((nodeMachine transparent (.complete 2 1 true .plain 0)).restrict
      (OneBlockPerView transparent (.complete 2 1 true .plain 0))).replay leaderRound .init).any _ = true by
        decide +kernel)
  exact ⟨node,fires,certified,commits_coherently run⟩

def firstVote (i : Nat) : ProtoVote :=
  signVote transparent (.complete 3 1 true .plain i) ⟨emptyHash.bytes,1,0⟩

/-- A node that gets the votes of the others but not their forwards has a certificate and
no block when its timer fires. -/
theorem votes_without_block : ∃ node,
    (nodeMachine transparent (.complete 3 1 true .plain 1)).Run .init
      [.connect,.command [1],.receive (.vote (firstVote 0)),.work 1 [],.receive (.vote (firstVote 2)),
        .work 1 [0,2],.work 1 []] node ∧
    (nodeMachine transparent (.complete 3 1 true .plain 1)).enabled node .callback ∧
    ¬CommitsCoherently transparent node := by
  obtain ⟨node,run,fires,unwithheld,unflagged,certified,absent⟩ := Guarded.Machine.reaches
    (fun node : Node => (nodeMachine transparent (.complete 3 1 true .plain 1)).enabled node .callback ∧
      node.state.withholdingProposalInject = false ∧ node.state.equivocatingProposalInject = false ∧
      (node.state.certMap.lookup node.state.view).isSome ∧
      node.state.bc.blocksByHeight.lookup node.state.bc.head = none)
    (show ((nodeMachine transparent (.complete 3 1 true .plain 1)).replay
      [.connect,.command [1],.receive (.vote (firstVote 0)),.work 1 [],.receive (.vote (firstVote 2)),
        .work 1 [0,2],.work 1 []] .init).any _ = true by decide +kernel)
  refine ⟨node,run,fires,fun coherent => ?_⟩
  obtain ⟨cert,found⟩ := Option.isSome_iff_exists.mp certified
  obtain ⟨b,present,_⟩ := coherent unwithheld unflagged cert found
  rw [absent] at present
  contradiction

/-! ## What was acknowledged stays -/

/-- The block that was at the head before the callback is still at its height, and the
certificate of that view is still for the same block. -/
def Preserved (before node : Node) : Prop :=
  (∀ b, before.state.bc.blocksByHeight.lookup before.state.bc.head = some b →
    node.state.bc.blocksByHeight.lookup before.state.bc.head = some b) ∧
  ∀ cert, before.state.certMap.lookup before.state.view = some cert →
    ∃ cert', node.state.certMap.lookup before.state.view = some cert' ∧
      cert'.data.blockHash = cert.data.blockHash

/-- The condition: a forward that completes a set is for a height above the head, and no goroutine
that stores a certificate is pending when the view is left. -/
def AboveHead (p : Platform) (cfg : NodeConfig) (node : Node) : NodeEvent → Prop
  | .work index _ => ∀ job ∈ node.pending[index]?, ∀ fprop ∈ job.heldForward,
      ∀ ep ∈ node.state.completes p cfg fprop, node.state.bc.head < ep.extBlock.getHeight
  | .callback => node.state.advances → ∀ job ∈ node.pending, job.storedCert = none
  | _ => True

instance (p : Platform) (cfg : NodeConfig) (node : Node) (e : NodeEvent) :
    Decidable (AboveHead p cfg node e) :=
  match e with
  | .work index _ => inferInstanceAs (Decidable (∀ job ∈ node.pending[index]?, _))
  | .callback => inferInstanceAs (Decidable (_ → _))
  | .connect | .command _ | .receive _ => isTrue trivial

section Commitments

variable {p : Platform} {cfg : NodeConfig} {before node node' : Node} {e : NodeEvent}

/-- The goroutines that are to store a certificate are those of the present view. -/
def Timely (node : Node) : Prop :=
  ∀ job ∈ node.pending, ∀ entry ∈ job.storedCert, entry.1 = node.state.view

theorem Timely.step (timely : Timely node) (step : NodeStep p cfg node e node') (condition : AboveHead p cfg node e) :
    Timely node' := by
  cases step with
  | outside _ _ jobs _ _ _ _ view pending noCert _ =>
    intro job member entry stores
    rw [view]
    rcases List.mem_append.mp (pending ▸ member) with old | new
    · exact timely job old entry stores
    · exact absurd (stores.symm.trans (noCert job new)) (by simp)
  | worked index order job n' effect found ran =>
    intro other member entry stores
    rw [show n'.view = node.state.view from ran.view]
    rcases List.mem_append.mp member with old | new
    · exact timely other (List.eraseIdx_subset old) entry stores
    · cases ran.chain with
      | quiet _ _ noCert | stored _ _ _ _ _ noCert | extended _ _ _ _ noCert | emptied _ _ _ _ noCert =>
        exact absurd (stores.symm.trans (noCert other new)) (by simp)
      | certified _ _ _ _ _ _ _ _ jobs =>
        obtain rfl := List.mem_singleton.mp (jobs ▸ new)
        obtain rfl := Option.some.inj stores
        rfl
  | calledBack n' effect ran =>
    cases ran with
    | kept _ _ => exact timely
    | advanced _ _ advances _ =>
      intro job member entry stores
      exact absurd (stores.symm.trans (condition advances job member)) (by simp)

/-- The head and the view have passed what was acknowledged, and it is intact. -/
structure Passed (before node : Node) : Prop where
  head : before.state.bc.head ≤ node.state.bc.head
  view : before.state.view < node.state.view
  kept : Preserved before node

/-- Every block is appended above the head: those of forwards by the condition, the others by
their construction. -/
theorem AboveHead.above {index : Nat} {order : List Nat} {job : Job} {b : ExtBlock}
    (condition : AboveHead p cfg node (.work index order)) (found : node.pending[index]? = some job)
    (extends_ : extension p cfg node.state job = some b) : node.state.bc.head < b.getHeight := by
  cases held : job.heldForward with
  | some fprop =>
    obtain ⟨ep,completed,rfl⟩ := extension_forwarded extends_ held
    exact condition job found fprop held ep completed
  | none =>
    rw [(extension_built extends_ held).1]
    exact Nat.lt_succ_self _

theorem Passed.worked {index : Nat} {order : List Nat} {job : Job} {n' : SyncHS} {effect : Effect}
    (passed : Passed before node) (timely : Timely node) (found : node.pending[index]? = some job)
    (step : JobStep p cfg node.state job n' effect) (condition : AboveHead p cfg node (.work index order)) :
    Passed before ⟨n',node.pending.eraseIdx index ++ effect.jobs,node.acked⟩ := by
  obtain ⟨head,view,blocks,certs⟩ := passed
  obtain ⟨sameView,_,chain⟩ := step
  have extended (b : ExtBlock) (extends_ : extension p cfg node.state job = some b) :
      before.state.bc.head ≤ (node.state.bc.extend p b).head ∧
      ∀ a, before.state.bc.blocksByHeight.lookup before.state.bc.head = some a →
        (node.state.bc.extend p b).blocksByHeight.lookup before.state.bc.head = some a := by
    refine ⟨Nat.le_succ_of_le head,fun a was => ?_⟩
    have above : before.state.bc.head ≠ b.getHeight :=
      Nat.ne_of_lt (Nat.lt_of_le_of_lt head (condition.above found extends_))
    rw [BlockChain.extend, BlockChain.store_byHeight, if_neg above]
    exact blocks a was
  cases chain with
  | quiet bc certMap _ | certified _ _ _ _ _ bc certMap _ _ =>
    exact ⟨bc ▸ head,sameView ▸ view,bc ▸ blocks,certMap ▸ certs⟩
  | extended b extends_ bc certMap _ =>
    obtain ⟨head,blocks⟩ := extended b extends_
    exact ⟨bc ▸ head,sameView ▸ view,bc ▸ blocks,certMap ▸ certs⟩
  | emptied b extends_ bc certMap _ =>
    obtain ⟨head,blocks⟩ := extended b extends_
    refine ⟨bc ▸ head,sameView ▸ view,bc ▸ blocks,fun old was => ?_⟩
    rw [certMap, lookup_insert, if_neg (Nat.ne_of_lt view)]
    exact certs old was
  | stored new height held bc certMap _ =>
    have current : height = node.state.view := timely job (List.mem_of_getElem? found) (height,new) (by rw [held]; rfl)
    refine ⟨bc ▸ head,sameView ▸ view,bc ▸ blocks,fun old was => ?_⟩
    rw [certMap, lookup_insert, if_neg (current ▸ Nat.ne_of_lt view)]
    exact certs old was

theorem Passed.step (passed : Passed before node) (timely : Timely node) (step : NodeStep p cfg node e node')
    (condition : AboveHead p cfg node e) : Passed before node' := by
  cases step with
  | outside _ _ jobs _ _ bc certMap view _ _ _ =>
    obtain ⟨head,past,blocks,certs⟩ := passed
    exact ⟨bc ▸ head,view ▸ past,bc ▸ blocks,certMap ▸ certs⟩
  | worked index order job n' effect found ran => exact passed.worked timely found ran condition
  | calledBack n' effect ran =>
    obtain ⟨head,past,blocks,certs⟩ := passed
    cases ran with
    | kept _ _ => exact ⟨head,past,blocks,certs⟩
    | advanced _ _ _ _ => exact ⟨head,Nat.lt_succ_of_lt past,blocks,certs⟩

theorem Passed.ofCallback (step : NodeStep p cfg node .callback node') (acks : node'.acked ≠ node.acked) :
    Passed node node' := by
  cases step with
  | outside _ _ _ _ other _ _ _ _ _ _ => exact absurd rfl other
  | calledBack n' effect ran =>
    cases ran with
    | kept _ _ => exact absurd (List.append_nil _) acks
    | advanced _ _ _ _ => exact ⟨Nat.le_refl _,Nat.lt_succ_self _,fun _ found => found,fun cert found => ⟨cert,found,rfl⟩⟩

variable {earlier later : List NodeEvent}

/-- In a run whose forwards are for heights above the head, and in which no certificate is still to
be stored when a view is left, nothing after an acknowledgement changes the acknowledged block or
the block its view is certified for. -/
theorem committed_is_preserved
    (run : ((nodeMachine p cfg).restrict (AboveHead p cfg)).Run .init (earlier ++ .callback :: later) node) :
    ∃ before after, ((nodeMachine p cfg).restrict (AboveHead p cfg)).Run .init earlier before ∧
      (nodeMachine p cfg).step before .callback = some after ∧
      (after.acked ≠ before.acked → Preserved before node) := by
  have keeps (s : Node) (e : NodeEvent) (t : Node) (timely : Timely s)
      (admitted : ((nodeMachine p cfg).restrict (AboveHead p cfg)).enabled s e)
      (moved : (nodeMachine p cfg).step s e = some t) : Timely t :=
    timely.step (nodeMachine_step moved) admitted.2
  obtain ⟨before,after,first,_,moved,whole,rest⟩ := run.event
  refine ⟨before,after,first,moved,fun acks => ?_⟩
  have timely : Timely after := whole.invariant (fun _ member => absurd member List.not_mem_nil) keeps
  have passed : Passed before node ∧ Timely node := by
    refine rest.invariant (I := fun node => Passed before node ∧ Timely node)
      ⟨Passed.ofCallback (nodeMachine_step moved) acks,timely⟩ ?_
    rintro s e t ⟨passed,timely⟩ admitted moved
    exact ⟨passed.step timely (nodeMachine_step moved) admitted.2,keeps s e t timely admitted moved⟩
  exact passed.1.kept

end Commitments

def secondAt (height : Nat) : Proposal :=
  newCandidateProposal transparent (.complete 2 1 true .plain 1) { SyncHS.init with leader := 1 } []
    genesisCert height [7,7]

def followerRound (prop : Proposal) : List NodeEvent := [.receive (.prop prop),.work 1 [],.work 1 []]

def acknowledges (node : Node) : Prop :=
  ∃ after ∈ (nodeMachine transparent (.complete 2 1 true .plain 0)).step node .callback,
    after.acked ≠ node.acked

instance (node : Node) : Decidable (acknowledges node) :=
  match found : (nodeMachine transparent (.complete 2 1 true .plain 0)).step node .callback with
  | none => isFalse fun ⟨_,member,_⟩ => by simp [found] at member
  | some after => decidable_of_iff (after.acked ≠ node.acked)
      ⟨fun differ => ⟨after,found,differ⟩,fun ⟨_,member,differ⟩ => by
        obtain rfl := Option.some.inj (found.symm.trans member)
        exact differ⟩

theorem committed_is_preserved_of_leader : ∃ before node : Node, acknowledges before ∧
    node.state.bc.head = 2 ∧ Preserved before node := by
  obtain ⟨before,first,acks⟩ := Guarded.Machine.reaches acknowledges
    (show (((nodeMachine transparent (.complete 2 1 true .plain 0)).restrict
      (AboveHead transparent (.complete 2 1 true .plain 0))).replay leaderRound .init).any _ = true by
        decide +kernel)
  obtain ⟨node,run,head⟩ := Guarded.Machine.reaches (fun node : Node => node.state.bc.head = 2)
    (show (((nodeMachine transparent (.complete 2 1 true .plain 0)).restrict
      (AboveHead transparent (.complete 2 1 true .plain 0))).replay
      (leaderRound ++ .callback :: followerRound (secondAt 2)) .init).any _ = true by decide +kernel)
  obtain ⟨before',after,first',moved,kept⟩ := committed_is_preserved run
  obtain rfl := first.functional first'
  refine ⟨before,node,acks,head,kept ?_⟩
  obtain ⟨after',moved',differ⟩ := acks
  obtain rfl := Option.some.inj (moved.symm.trans moved')
  exact differ

/-- A later leader may put another block at a height that was acknowledged. -/
theorem acknowledged_block_is_replaced : ∃ before after node,
    (nodeMachine transparent (.complete 2 1 true .plain 0)).Run .init leaderRound before ∧
    (nodeMachine transparent (.complete 2 1 true .plain 0)).step before .callback = some after ∧
    after.acked ≠ before.acked ∧
    (nodeMachine transparent (.complete 2 1 true .plain 0)).Run .init
      (leaderRound ++ .callback :: followerRound (secondAt 1)) node ∧
    ¬Preserved before node := by
  obtain ⟨before,first,⟨after,moved,differ⟩,head,was⟩ := Guarded.Machine.reaches
    (fun node : Node => acknowledges node ∧ node.state.bc.head = 1 ∧
      (node.state.bc.blocksByHeight.lookup 1).map ExtBlock.getExtra = some [])
    (show ((nodeMachine transparent (.complete 2 1 true .plain 0)).replay leaderRound .init).any _ =
      true by decide +kernel)
  obtain ⟨node,run,now⟩ := Guarded.Machine.reaches
    (fun node : Node => (node.state.bc.blocksByHeight.lookup 1).map ExtBlock.getExtra = some [7,7])
    (show ((nodeMachine transparent (.complete 2 1 true .plain 0)).replay
      (leaderRound ++ .callback :: followerRound (secondAt 1)) .init).any _ = true by decide +kernel)
  refine ⟨before,after,node,first,moved,differ,run,fun preserved => ?_⟩
  obtain ⟨b,found,extra⟩ := Option.map_eq_some_iff.mp was
  have kept := preserved.1 b (head ▸ found)
  rw [head] at kept
  rw [kept, Option.map_some, extra] at now
  simp at now

end ReputationSMR
