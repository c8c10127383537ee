import ReputationSMR.BlockContents

/-! The transactions of a block. Signatures and hash cover the header of a proposal, and
nothing covers its body; a node stores the body of the forward that completes its set.
Whether that is the body the leader proposed depends on everybody who passed the proposal
on, and on that no two proposals share a header, which is the same for all transactions. -/
namespace ReputationSMR

open Wire FiniteMap

theorem ExtProposal.fromProto_block {p : Platform} {prop : Proposal} {ep : ExtProposal}
    (decoded : ExtProposal.fromProto p prop = some ep) :
    ep.extBlock.extHeader = prop.getHeader ∧ ep.extBlock.getTxs = prop.getTxs := by
  obtain ⟨block,cert,found,_,_,rfl⟩ := ExtProposal.fromProto_eq_some.mp decoded
  exact ⟨by rw [Proposal.getHeader, found]; rfl,by rw [Proposal.getTxs, found]; rfl⟩

/-! ## Proposals on their way -/

def SyncHSMsg.carried : SyncHSMsg → Option Proposal
  | .prop x => some x
  | _ => none

/-- The proposal that a job passes on or may store. -/
def Job.carried : Job → Option Proposal
  | .forward x | .proposeChannel x | .proposed x => some x
  | _ => none

/-- The second proposal is the first one, perhaps from another sender. -/
structure Copies (x y : Proposal) : Prop where
  block : y.block = x.block
  proof : y.miningProof = x.miningProof

theorem Copies.getHeader {x y : Proposal} (copies : Copies x y) : y.getHeader = x.getHeader :=
  congrArg (fun block => block.bind ProtoBlock.header) copies.block

theorem Copies.getTxs {x y : Proposal} (copies : Copies x y) : y.getTxs = x.getTxs :=
  congrArg (fun block => ((block.bind ProtoBlock.body).map ProtoBody.txs).getD []) copies.block

/-- The leader proposes its newest commands on top of its head. -/
structure Drafts (p : Platform) (cfg : NodeConfig) (n n' : SyncHS) (cert : BlockCertificate) : Prop where
  leader : n.leader = cfg.id
  block : extension p cfg n .round = some (candidateBlock p (n.newestCommands cfg) cert (n.bc.head + 1) [])
  chain : n'.bc = n.bc.extend p (candidateBlock p (n.newestCommands cfg) cert (n.bc.head + 1) [])

theorem Drafts.lookup {p : Platform} {cfg : NodeConfig} {n n' : SyncHS} {cert : BlockCertificate}
    (drafts : Drafts p cfg n n' cert) : n'.bc.blocksByHeight.lookup (n.bc.head + 1) =
      some (candidateBlock p (n.newestCommands cfg) cert (n.bc.head + 1) []) := by
  rw [drafts.chain, BlockChain.extend, BlockChain.store_byHeight]
  exact if_pos rfl

section Carried

variable {p : Platform} {cfg : NodeConfig} {n n' : SyncHS} {job : Job} {effect : Effect} {y : Proposal}

theorem nextEmptyBlock_contents {b : ExtBlock} (next : n.nextEmptyBlock p = some b) :
    b.getExtra = emptyExtra ∧ b.getTxs = [] ∧ b.getHeight = n.bc.head + 1 := by
  obtain ⟨cert,_,rfl⟩ := Option.map_eq_some_iff.mp next
  exact ⟨rfl,rfl,rfl⟩

/-- The start of a round: a node that does not propose sends nothing and leaves its chain
alone, unless it appends the empty block of a withheld proposal. -/
theorem RoundCase.drafts_or_quiet (step : RoundCase p cfg n n' effect)
    (sincere : cfg.timerMode ≠ .equivocation ∧ cfg.timerMode ≠ .maliciousProposal) :
    effect = .none ∧ (n'.bc = n.bc ∨ ∃ b, n.nextEmptyBlock p = some b ∧ n'.bc = n.bc.extend p b) ∨
      ∃ cert, Drafts p cfg n n' cert ∧ effect = ⟨[.proposed (n.candidate p cfg cert)],[],[]⟩ := by
  cases step with
  | idle _ _ _ _ => exact Or.inl ⟨rfl,Or.inl rfl⟩
  | withholds _ _ =>
    refine Or.inl ⟨rfl,?_⟩
    simp only [handleWithholdingProposal, SyncHS.getCertForBlockIndex]
    split
    next => exact Or.inl rfl
    next cert found => exact Or.inr ⟨_,Option.map_eq_some_iff.mpr ⟨cert,found,rfl⟩,rfl⟩
  | equivocates _ _ _ mode => exact absurd mode sincere.1
  | intrudes _ _ _ mode => exact absurd mode sincere.2
  | proposes withheld cert _ leader noWithholding noEquivocation found enough =>
    refine Or.inr ⟨cert,⟨leader,?_,rfl⟩,rfl⟩
    simp only [extension]
    rw [if_neg noWithholding, if_pos ⟨leader,enough,noEquivocation⟩]
    simp [SyncHS.nextBlock,found]

theorem JobCase.carries {order : List Nat} (step : JobCase p cfg n order job n' effect)
    (sincere : cfg.timerMode ≠ .equivocation ∧ cfg.timerMode ≠ .maliciousProposal)
    (carried : (∃ next ∈ effect.jobs, next.carried = some y) ∨
      ∃ m ∈ effect.sends.flatMap Outgoing.messages, m.carried = some y) :
    (∃ x, job.carried = some x ∧ Copies x y) ∨
      job = .round ∧ ∃ cert, Drafts p cfg n n' cert ∧ y = n.candidate p cfg cert := by
  have quiet (jobs : ∀ next ∈ effect.jobs, next.carried = none)
      (sends : ∀ m ∈ effect.sends.flatMap Outgoing.messages, m.carried = none) : False := by
    rcases carried with ⟨next,member,found⟩ | ⟨m,member,found⟩
    · rw [jobs next member] at found
      contradiction
    · rw [sends m member] at found
      contradiction
  cases step with
  | forwarded prop ep _ _ =>
    have same : y = signForward p cfg prop := by
      rcases carried with ⟨next,member,found⟩ | ⟨m,member,found⟩
      · rw [List.mem_singleton.mp member] at found
        exact (Option.some.inj found).symm
      · obtain rfl : m = .prop (signForward p cfg prop) := by simpa [Outgoing.messages] using member
        exact (Option.some.inj found).symm
    subst same
    exact Or.inl ⟨prop,rfl,rfl,rfl⟩
  | announced prop =>
    have same : y = prop := by
      rcases carried with ⟨next,member,_⟩ | ⟨m,member,found⟩
      · contradiction
      · obtain rfl : m = .prop prop := by simpa [Outgoing.messages] using member
        exact (Option.some.inj found).symm
    subst same
    exact Or.inl ⟨y,rfl,rfl,rfl⟩
  | started _ _ step =>
    rcases step.drafts_or_quiet sincere with ⟨rfl,_⟩ | ⟨cert,drafts,rfl⟩
    · exact (quiet (by simp [Effect.none]) (by simp [Effect.none])).elim
    · obtain ⟨next,member,found⟩ := carried.resolve_right (by simp)
      rw [List.mem_singleton.mp member] at found
      exact Or.inr ⟨rfl,cert,drafts,(Option.some.inj found).symm⟩
  | read _ _ _ step =>
    cases step with
    | conflict _ _ _ _ _ =>
      exact (quiet (by split <;> simp [Job.carried,Effect.none]) (by split <;> simp [Effect.none])).elim
    | _ => exact (quiet (by simp [Job.carried,Effect.none])
      (by simp [Outgoing.messages,SyncHSMsg.carried,Effect.none])).elim
  | voteHandled _ _ _ step =>
    cases step with
    | counted _ _ _ _ counted =>
      cases counted <;> exact (quiet (by simp [Job.carried,Effect.none]) (by simp [Effect.none])).elim
    | _ => exact (quiet (by simp [Job.carried,Effect.none]) (by simp [Effect.none])).elim
  | _ => exact (quiet (by simp [Job.carried,Effect.none])
    (by simp [Outgoing.messages,SyncHSMsg.carried,Effect.none])).elim

theorem JobCase.round_signs {order : List Nat} {data : Bytes} (step : JobCase p cfg n order .round n' effect)
    (sincere : cfg.timerMode ≠ .equivocation ∧ cfg.timerMode ≠ .maliciousProposal) (signs : effect.signs data) :
    ∃ cert, Drafts p cfg n n' cert ∧ data = (newHeader p cert (n.bc.head + 1) []).marshal := by
  cases step with
  | started _ _ step =>
    rcases step.drafts_or_quiet sincere with ⟨rfl,_⟩ | ⟨cert,drafts,rfl⟩
    · exact absurd signs Effect.none_signs
    · refine ⟨cert,drafts,?_⟩
      obtain ⟨next,member,draft⟩ := signs.resolve_left List.not_mem_nil
      rw [List.mem_singleton.mp member] at draft
      exact (Option.some.inj draft).symm

theorem JobCase.round_drafts {order : List Nat} {b : ExtBlock} (step : JobCase p cfg n order .round n' effect)
    (sincere : cfg.timerMode ≠ .equivocation ∧ cfg.timerMode ≠ .maliciousProposal)
    (head : n'.bc.head = n.bc.head + 1) (stored : n'.bc.blocksByHeight.lookup (n.bc.head + 1) = some b)
    (nonempty : b.getExtra ≠ emptyExtra) : ∃ next ∈ effect.jobs, next.draft = some (marshalHeader b.extHeader) := by
  cases step with
  | started _ _ step =>
    rcases step.drafts_or_quiet sincere with ⟨_,same | ⟨b',next,chain⟩⟩ | ⟨cert,drafts,rfl⟩
    · rw [same] at head
      exact absurd head (Nat.ne_of_lt (Nat.lt_succ_self _))
    · obtain ⟨extra,_,height⟩ := nextEmptyBlock_contents next
      rw [chain, BlockChain.extend, BlockChain.store_byHeight, if_pos height.symm] at stored
      exact absurd (Option.some.inj stored ▸ extra) nonempty
    · refine ⟨_,List.mem_singleton.mpr rfl,?_⟩
      rw [← Option.some.inj (drafts.lookup.symm.trans stored)]
      rfl

theorem protocol_carried {m : SyncHSMsg} (member : job ∈ protocol cfg n m) (carried : job.carried = some y) :
    m.carried = some y := by
  cases m with
  | prop x =>
    simp only [protocol] at member
    split at member
    next =>
      split at member
      next =>
        obtain rfl := List.mem_singleton.mp member
        exact carried
      next =>
        obtain rfl := List.mem_singleton.mp member
        contradiction
    next =>
      obtain rfl := List.mem_singleton.mp member
      exact carried
  | vote v =>
    obtain rfl := List.mem_singleton.mp member
    contradiction
  | eqevidence e | mpevidence e | mvevidence e =>
    simp only [protocol] at member
    split at member
    next =>
      obtain rfl := List.mem_singleton.mp member
      contradiction
    next => contradiction
  | ack _ | tx _ | unset => contradiction

end Carried

theorem NodeCase.carries {p : Platform} {cfg : NodeConfig} {node node' : Node} {event : NodeEvent}
    {sends : List Outgoing} {y : Proposal} (case : NodeCase p cfg node event node' sends)
    (sincere : cfg.timerMode ≠ .equivocation ∧ cfg.timerMode ≠ .maliciousProposal)
    (carried : (∃ job ∈ node'.pending, job.carried = some y) ∨
      ∃ m ∈ sends.flatMap Outgoing.messages, m.carried = some y) :
    (∃ job ∈ node.pending, ∃ x, job.carried = some x ∧ Copies x y) ∨ (∃ m, event = .receive m ∧ m.carried = some y) ∨
      ∃ index order cert, event = .work index order ∧ node.pending[index]? = some .round ∧
        Drafts p cfg node.state node'.state cert ∧ y = node.state.candidate p cfg cert := by
  have held {job : Job} (member : job ∈ node.pending) (carried : job.carried = some y) :
      ∃ job ∈ node.pending, ∃ x, job.carried = some x ∧ Copies x y := ⟨job,member,y,carried,rfl,rfl⟩
  cases case with
  | connected | calledBack _ _ _ =>
    obtain ⟨job,member,carried⟩ := carried.resolve_right (by simp)
    exact Or.inl (held member carried)
  | commanded cmd n' jobs case =>
    obtain ⟨job,member,kept⟩ := carried.resolve_right (by simp)
    rcases List.mem_append.mp member with old | new
    · exact Or.inl (held old kept)
    · cases case with
      | pooled _ _ _ _ _ rounds =>
        rw [rounds job new] at kept
        contradiction
  | received m =>
    obtain ⟨job,member,carried⟩ := carried.resolve_right (by simp)
    rcases List.mem_append.mp member with old | new
    · exact Or.inl (held old carried)
    · exact Or.inr (Or.inl ⟨m,rfl,protocol_carried new carried⟩)
  | worked index order job n' jobs sends found case =>
    have fresh (carried : (∃ next ∈ jobs, next.carried = some y) ∨
        ∃ m ∈ sends.flatMap Outgoing.messages, m.carried = some y) :
        (∃ job ∈ node.pending, ∃ x, job.carried = some x ∧ Copies x y) ∨
          (∃ m, NodeEvent.work index order = .receive m ∧ m.carried = some y) ∨
          ∃ index' order' cert, NodeEvent.work index order = .work index' order' ∧
            node.pending[index']? = some .round ∧ Drafts p cfg node.state n' cert ∧
            y = node.state.candidate p cfg cert := by
      rcases case.carries sincere carried with ⟨x,taken,copies⟩ | ⟨rfl,cert,drafts,candidate⟩
      · exact Or.inl ⟨job,List.mem_of_getElem? found,x,taken,copies⟩
      · exact Or.inr (Or.inr ⟨index,order,cert,rfl,found,drafts,candidate⟩)
    rcases carried with ⟨next,member,carried⟩ | sent
    · rcases of_mem_work member with old | new
      · exact Or.inl (held old carried)
      · exact fresh (Or.inl ⟨next,new,carried⟩)
    · exact fresh (Or.inr sent)

/-! ## The conditions -/

/-- What the leader of a view has in its own chain at the height of the view. -/
def System.leaderBlock (c : Cluster) (v : Nat) (s : System) : Option ExtBlock :=
  (s.nodes (leaderOf c.size v)).state.bc.blocksByHeight.lookup v

/-- A proposal with the leader's signature and the header of its block has its transactions. -/
def Faithful (c : Cluster) (p : Platform) (v : Nat) (s : System) (x : Proposal) : Prop :=
  ∀ h ∈ x.getHeader, h.height = v → p.verify (leaderOf c.size v) h.marshal x.miningProof = some true →
    ∀ b ∈ s.leaderBlock c v, b.extHeader = some h → b.getTxs = x.getTxs

instance (c : Cluster) (p : Platform) (v : Nat) (s : System) (x : Proposal) : Decidable (Faithful c p v s x) :=
  inferInstanceAs (Decidable (∀ h ∈ x.getHeader, _))

/-- A node proposes, forwards and appends blocks of the height `v` in the view `v` only. -/
def InTurn (c : Cluster) (p : Platform) (v : Nat) (s : System) (i : Nat) : Job → Prop
  | .round => (s.nodes i).state.leader = (c.config i).id →
      (extension p (c.config i) (s.nodes i).state .round).isSome → (s.nodes i).state.bc.head + 1 = v →
      (s.nodes i).state.view = v
  | .forward prop => ∀ ep ∈ ExtProposal.fromProto p prop,
      checkProposal p (c.config i) (s.nodes i).state ep = some true →
      headerHeight (marshalHeader prop.getHeader) = some v → (s.nodes i).state.view = v
  | .proposeChannel fprop => ∀ ep ∈ (s.nodes i).state.completes p (c.config i) fprop,
      ep.extBlock.getHeight = v → (s.nodes i).state.view = v
  | _ => True

instance (c : Cluster) (p : Platform) (v : Nat) (s : System) (i : Nat) (job : Job) :
    Decidable (InTurn c p v s i job) :=
  match job with
  | .round => inferInstanceAs (Decidable (_ → _))
  | .forward prop => inferInstanceAs (Decidable (∀ ep ∈ ExtProposal.fromProto p prop, _))
  | .proposeChannel fprop => inferInstanceAs (Decidable (∀ ep ∈ SyncHS.completes p _ _ fprop, _))
  | .maliPropseChannel _ | .voteChannel _ | .eqEvidenceChannel _ | .maliProEvidenceChannel _
  | .maliVoteEvidenceChannel _ | .proposed _ | .vote _ | .addCert _ _ | .sendEqProEvidence _ _
  | .sendMalivoteEvidence _ => isTrue trivial

/-- Honest nodes keep to the height of the view, and Byzantine nodes do not exchange the
body of a block that the leader has signed. -/
def KeepsBodies (c : Cluster) (p : Platform) (v : Nat) (s : System) : SystemEvent → Prop
  | .work i index order => EachJob (InTurn c p v) s (.work i index order)
  | .inject _ m => ∀ x ∈ m.carried, Faithful c p v s x
  | _ => True

instance (c : Cluster) (p : Platform) (v : Nat) (s : System) (e : SystemEvent) : Decidable (KeepsBodies c p v s e) :=
  match e with
  | .work i index order => inferInstanceAs (Decidable (EachJob (InTurn c p v) s (.work i index order)))
  | .inject _ m => inferInstanceAs (Decidable (∀ x ∈ m.carried, _))
  | .command _ _ | .connect _ | .deliver _ | .callback _ => isTrue trivial

/-! ## Extensions at the height of the view -/

/-- What the leader signs and proposes for the height is its own block, and everything on its
way or stored that claims to be this block has its transactions. -/
structure BodiesAgree (c : Cluster) (p : Platform) (v : Nat) (s : System) : Prop where
  signed : ∀ data, s.made (leaderOf c.size v) data → headerHeight data = some v →
    ∃ b, s.leaderBlock c v = some b ∧ marshalHeader b.extHeader = data
  proposed : ∀ b, s.leaderBlock c v = some b → b.getExtra ≠ emptyExtra →
    s.made (leaderOf c.size v) (marshalHeader b.extHeader)
  reached : ∀ b, s.leaderBlock c v = some b → v ≤ (s.nodes (leaderOf c.size v)).state.bc.head
  net : ∀ x ∈ s.net, ∀ y, x.msg.carried = some y → Faithful c p v s y
  pending : ∀ i ∈ c.honestNodes, ∀ job ∈ (s.nodes i).pending, ∀ y, job.carried = some y → Faithful c p v s y
  empty : ∀ i ∈ c.honestNodes, ∀ b, (s.nodes i).state.bc.blocksByHeight.lookup v = some b →
    b.getExtra = emptyExtra → b.getTxs = []
  stored : ∀ i ∈ c.honestNodes, ∀ b, (s.nodes i).state.bc.blocksByHeight.lookup v = some b →
    b.getExtra ≠ emptyExtra → ∃ b', s.leaderBlock c v = some b' ∧ b'.extHeader = b.extHeader ∧ b'.getTxs = b.getTxs

/-- The block with which a node extends its chain at the height of the view. -/
inductive Extends (c : Cluster) (p : Platform) (v : Nat) (s : System) (i : Nat) : Job → ExtBlock → Prop where
  | empty (job : Job) (b : ExtBlock) : b.getExtra = emptyExtra → b.getTxs = [] →
      (s.nodes i).state.bc.head + 1 = v → Extends c p v s i job b
  | own (cert : BlockCertificate) : i = leaderOf c.size v → (s.nodes i).state.bc.head + 1 = v →
      (s.nodes i).state.certMap.lookup (s.nodes i).state.bc.head = some cert →
      Extends c p v s i .round (candidateBlock p ((s.nodes i).state.newestCommands (c.config i)) cert v [])
  | forwarded (fprop : Proposal) (b : ExtBlock) : i ≠ leaderOf c.size v → b.extHeader = fprop.getHeader →
      b.getTxs = fprop.getTxs → .proposeChannel fprop ∈ (s.nodes i).pending →
      p.verify (leaderOf c.size v) (marshalHeader fprop.getHeader) fprop.miningProof = some true →
      Extends c p v s i (.proposeChannel fprop) b

section Bodies

variable {c : Cluster} {p : Platform} {v : Nat} {s t : System} {e : SystemEvent} {trace : List SystemEvent} {i : Nat}

theorem InTurn.extends (regular : c.Regular) (authentic : Authentic c p trace s) (honest : i ∈ c.honestNodes)
    {job : Job} {b : ExtBlock} (inTurn : InTurn c p v s i job) (member : job ∈ (s.nodes i).pending)
    (extended : extension p (c.config i) (s.nodes i).state job = some b) (height : b.getHeight = v) :
    Extends c p v s i job b := by
  have empty (next : (s.nodes i).state.nextEmptyBlock p = some b) : Extends c p v s i job b := by
    obtain ⟨extra,txs,above⟩ := nextEmptyBlock_contents next
    exact .empty job b extra txs (above.symm.trans height)
  have turn (view : (s.nodes i).state.view = v) : (s.nodes i).state.leader = leaderOf c.size v :=
    view ▸ (authentic.turns i honest).2
  cases job with
  | round =>
    have present : (extension p (c.config i) (s.nodes i).state .round).isSome := by rw [extended]; rfl
    simp only [extension] at extended
    split at extended
    next => exact empty extended
    next =>
      split at extended
      next proposes =>
        obtain ⟨cert,certified,rfl⟩ := Option.map_eq_some_iff.mp extended
        have above : (s.nodes i).state.bc.head + 1 = v := height
        have view := inTurn proposes.1 present above
        have own : i = leaderOf c.size v := by
          rw [← turn view, proposes.1, regular.id i honest]
        rw [above]
        exact .own cert own above certified
      next => contradiction
  | proposeChannel fprop =>
    obtain ⟨ep,completed,rfl⟩ := Option.map_eq_some_iff.mp extended
    have view := inTurn ep completed height
    simp only [SyncHS.completes] at completed
    split at completed
    next => contradiction
    next unflagged =>
      simp only [Option.bind_eq_bind, Option.bind_eq_some_iff] at completed
      obtain ⟨ep',decoded,_,_,completed⟩ := completed
      split at completed
      next checks =>
        obtain rfl := Option.some.inj completed
        have endorsed := checkForward_endorses decoded checks.1
        rw [turn view] at endorsed
        obtain ⟨header,txs⟩ := ExtProposal.fromProto_block decoded
        refine .forwarded fprop _ ?_ header txs member endorsed.proposed
        intro own
        exact checks.2.2.2 (by rw [turn view, regular.id i honest, own])
      next => contradiction
  | eqEvidenceChannel e =>
    simp only [extension] at extended
    split at extended
    next => exact empty extended
    next => contradiction
  | _ => contradiction

/-! ## The step -/

theorem Job.carried_signatures {job : Job} {y : Proposal} (carried : job.carried = some y) :
    (marshalHeader y.getHeader,y.miningProof) ∈ job.signatures := by
  cases job with
  | forward x | proposeChannel x | proposed x =>
    obtain rfl := Option.some.inj carried
    exact List.mem_cons_self
  | _ => contradiction

theorem SyncHSMsg.carried_signatures {m : SyncHSMsg} {y : Proposal} (carried : m.carried = some y) :
    (marshalHeader y.getHeader,y.miningProof) ∈ m.signatures := by
  cases m with
  | prop x =>
    obtain rfl := Option.some.inj carried
    exact List.mem_cons_self
  | _ => contradiction

/-- A header is determined by its bytes, if they are those of a header above height zero. -/
theorem marshalHeader_some {header : Option ProtoHeader} {h : ProtoHeader} (positive : 1 ≤ h.height)
    (same : marshalHeader header = h.marshal) : header = some h := by
  cases header with
  | none =>
    have height := congrArg headerHeight same
    rw [headerHeight_header] at height
    have zero : headerHeight (marshalHeader none) = some 0 := by decide
    rw [zero] at height
    have := Option.some.inj height
    omega
  | some h' => exact congrArg some (ProtoHeader.marshal_injective same)

theorem Faithful.copies {x y : Proposal} (faithful : Faithful c p v s x) (copies : Copies x y) : Faithful c p v s y := by
  intro h header height verifies b held same
  rw [copies.getHeader] at header
  rw [copies.proof] at verifies
  rw [copies.getTxs]
  exact faithful h header height verifies b held same

section Step

variable (regular : c.Regular) (authentic : Authentic c p trace s)
  (backs : ∀ data, HasSigned p trace s (leaderOf c.size v) data → s.made (leaderOf c.size v) data)
  (agree : BodiesAgree c p v s) {event : NodeEvent} {sends : List Outgoing} (moves : Moves c p s e t i event sends)
  (keeps : KeepsBodies c p v s e) (honest : i ∈ c.honestNodes)

include regular authentic moves keeps honest in
theorem KeepsBodies.stores : (t.nodes i).state.bc.blocksByHeight.lookup v =
      (s.nodes i).state.bc.blocksByHeight.lookup v ∧ (s.nodes i).state.bc.head ≤ (t.nodes i).state.bc.head ∨
    ∃ order job jobs b, job ∈ (s.nodes i).pending ∧ jobs ⊆ (t.nodes i).pending ∧ Extends c p v s i job b ∧
      b.getHeight = v ∧ JobCase p (c.config i) (s.nodes i).state order job (t.nodes i).state ⟨jobs,sends,[]⟩ ∧
      (t.nodes i).state.bc.blocksByHeight.lookup v = some b ∧
      (t.nodes i).state.bc.head = (s.nodes i).state.bc.head + 1 := by
  rcases moves.case.stores v with same | ⟨index,order,job,jobs,b,work,found,spawned,case,extended,height,bc⟩
  · exact Or.inl same
  · obtain rfl := moves.works index order work
    have inTurn : InTurn c p v s i job := EachJob.work keeps found
    have member := List.mem_of_getElem? found
    refine Or.inr ⟨order,job,jobs,b,member,spawned,inTurn.extends regular authentic honest member extended height,height,
      case,?_,by rw [bc]; rfl⟩
    rw [bc, BlockChain.extend, BlockChain.store_byHeight, if_pos height.symm]

include regular authentic moves keeps agree in
theorem BodiesAgree.leader_moves (leads : leaderOf c.size v ∈ c.honestNodes) :
    t.leaderBlock c v = s.leaderBlock c v ∧ (s.nodes (leaderOf c.size v)).state.bc.head ≤
        (t.nodes (leaderOf c.size v)).state.bc.head ∨
      i = leaderOf c.size v ∧ s.leaderBlock c v = none ∧
        v ≤ (t.nodes (leaderOf c.size v)).state.bc.head := by
  by_cases own : leaderOf c.size v = i
  · subst own
    rcases keeps.stores regular authentic moves leads with same | ⟨order,job,jobs,b,_,_,extends_,_,_,_,head⟩
    · exact Or.inl same
    · have above : (s.nodes (leaderOf c.size v)).state.bc.head + 1 = v := by
        cases extends_ with
        | empty _ _ _ _ above => exact above
        | own _ _ above _ => exact above
        | forwarded _ _ other _ _ _ _ => exact absurd rfl other
      refine Or.inr ⟨rfl,?_,by rw [head, above]⟩
      rw [Option.eq_none_iff_forall_ne_some]
      intro b' held
      have := agree.reached b' held
      omega
  · rw [System.leaderBlock, System.leaderBlock, moves.other _ own]
    exact Or.inl ⟨rfl,le_rfl⟩

include regular authentic moves keeps agree in
theorem BodiesAgree.leader_kept (leads : leaderOf c.size v ∈ c.honestNodes) {b : ExtBlock}
    (held : s.leaderBlock c v = some b) : t.leaderBlock c v = some b := by
  rcases agree.leader_moves regular authentic moves keeps leads with ⟨same,_⟩ | ⟨_,none,_⟩
  · exact same.trans held
  · rw [none] at held
    contradiction

include regular authentic backs moves keeps agree in
/-- A proposal that is on its way stays faithful: while the leader has no block, nothing of
the height can carry its signature. -/
theorem BodiesAgree.faithful (leads : leaderOf c.size v ∈ c.honestNodes) (inside : leaderOf c.size v < c.size)
    {y : Proposal} (backed : Backed c p trace s (marshalHeader y.getHeader,y.miningProof))
    (faithful : Faithful c p v s y) : Faithful c p v t y := by
  intro h header height verifies b held same
  rcases agree.leader_moves regular authentic moves keeps leads with ⟨unchanged,_⟩ | ⟨_,none,_⟩
  · rw [unchanged] at held
    exact faithful h header height verifies b held same
  · have bytes : marshalHeader y.getHeader = h.marshal := by rw [show y.getHeader = some h from header]; rfl
    have signed := backed _ inside (by rw [bytes]; exact verifies)
    rw [bytes] at signed
    obtain ⟨_,present,_⟩ := agree.signed _ (backs _ signed) (by rw [headerHeight_header, height])
    rw [none] at present
    contradiction

include regular authentic backs moves keeps agree in
theorem BodiesAgree.signs (sincere : c.Sincere) (leads : leaderOf c.size v ∈ c.honestNodes) {data : Bytes}
    (made : t.made (leaderOf c.size v) data) (height : headerHeight data = some v) :
    ∃ b, t.leaderBlock c v = some b ∧ marshalHeader b.extHeader = data := by
  have kept (old : s.made (leaderOf c.size v) data) :
      ∃ b, t.leaderBlock c v = some b ∧ marshalHeader b.extHeader = data := by
    obtain ⟨b,held,header⟩ := agree.signed data old height
    exact ⟨b,agree.leader_kept regular authentic moves keeps leads held,header⟩
  rcases moves.made_job made with old | ⟨own,index,order,job,jobs,work,found,case,signs⟩
  · exact kept old
  subst own
  subst work
  have inTurn : InTurn c p v s (leaderOf c.size v) job := EachJob.work keeps found
  obtain ⟨started,turn⟩ := authentic.turns _ leads
  rcases case.signs signs with drafted | signed
  · exact kept (Or.inr ⟨job,List.mem_of_getElem? found,drafted⟩)
  rcases signed.header started (sincere _ leads) height with
    ⟨prop,ep,rfl,decoded,checked,rfl⟩ | ⟨_,rfl,_,_,_,_,_⟩
  · -- the leader passes on a proposal that it has signed before
    have view := inTurn ep decoded checked height
    have proof := checkProposal_signed decoded checked
    rw [turn, view] at proof
    exact kept (backs _ (authentic.signedBy regular leads (List.mem_of_getElem? found) List.mem_cons_self proof))
  · obtain ⟨cert,drafts,rfl⟩ := case.round_signs (sincere _ leads) signs
    rw [headerHeight_header] at height
    have above : (s.nodes (leaderOf c.size v)).state.bc.head + 1 = v := Option.some.inj height
    have stored := drafts.lookup
    rw [above] at stored ⊢
    exact ⟨_,stored,rfl⟩

include regular authentic moves keeps agree in
theorem BodiesAgree.proposes (sincere : c.Sincere) (leads : leaderOf c.size v ∈ c.honestNodes) {b : ExtBlock}
    (held : t.leaderBlock c v = some b) (nonempty : b.getExtra ≠ emptyExtra) :
    t.made (leaderOf c.size v) (marshalHeader b.extHeader) := by
  rcases agree.leader_moves regular authentic moves keeps leads with ⟨same,_⟩ | ⟨rfl,none,_⟩
  · exact moves.keeps (agree.proposed b (same.symm.trans held) nonempty)
  rcases keeps.stores regular authentic moves leads with
    ⟨same,_⟩ | ⟨order,job,jobs,b',_,spawned,extends_,_,case,stored,head⟩
  · have kept : s.leaderBlock c v = some b := same.symm.trans held
    rw [none] at kept
    contradiction
  · obtain rfl := Option.some.inj (held.symm.trans stored)
    cases extends_ with
    | empty _ _ extra _ _ => exact absurd extra nonempty
    | own cert _ above _ =>
      obtain ⟨next,member,draft⟩ := case.round_drafts (sincere _ leads) head (above.symm ▸ stored) nonempty
      exact Or.inr ⟨next,spawned member,draft⟩
    | forwarded _ _ other _ _ _ _ => exact absurd rfl other

include regular authentic backs moves keeps agree honest in
theorem BodiesAgree.carries (sincere : c.Sincere) (leads : leaderOf c.size v ∈ c.honestNodes)
    (inside : leaderOf c.size v < c.size) {y : Proposal}
    (carried : (∃ job ∈ (t.nodes i).pending, job.carried = some y) ∨
      ∃ m ∈ sends.flatMap Outgoing.messages, m.carried = some y) : Faithful c p v t y := by
  rcases moves.case.carries (sincere i honest) carried with
    ⟨job,member,x,held,copies⟩ | ⟨m,received,held⟩ | ⟨index,order,cert,work,found,drafts,rfl⟩
  · refine Faithful.copies ?_ copies
    exact agree.faithful regular authentic backs moves keeps leads inside
      (authentic.pending i honest job member _ (Job.carried_signatures held)) (agree.pending i honest job member x held)
  · obtain ⟨packet,member,rfl⟩ := moves.receives m received
    exact agree.faithful regular authentic backs moves keeps leads inside
      (authentic.net packet member _ (SyncHSMsg.carried_signatures held)) (agree.net packet member y held)
  · -- a new proposal: the node is the leader, and this is its block
    obtain rfl := moves.works index order work
    have inTurn : InTurn c p v s i .round := EachJob.work keeps found
    intro h header height _ b block same
    obtain rfl := Option.some.inj header
    have above : (s.nodes i).state.bc.head + 1 = v := height
    have view := inTurn drafts.leader (by rw [drafts.block]; rfl) above
    have own : i = leaderOf c.size v := by
      rw [← view, ← (authentic.turns i honest).2, drafts.leader, regular.id i honest]
    have stored := drafts.lookup
    rw [above] at stored
    rw [System.leaderBlock, ← own] at block
    rw [← Option.some.inj (stored.symm.trans block)]
    rfl

include authentic backs agree honest in
theorem BodiesAgree.forwarded (positive : 1 ≤ v) (inside : leaderOf c.size v < c.size) {fprop : Proposal} {b : ExtBlock}
    (height : b.getHeight = v) (header : b.extHeader = fprop.getHeader) (txs : b.getTxs = fprop.getTxs)
    (member : .proposeChannel fprop ∈ (s.nodes i).pending)
    (verifies : p.verify (leaderOf c.size v) (marshalHeader fprop.getHeader) fprop.miningProof = some true) :
    ∃ b', s.leaderBlock c v = some b' ∧ b'.extHeader = b.extHeader ∧ b'.getTxs = b.getTxs := by
  obtain ⟨h,present,rfl⟩ : ∃ h, fprop.getHeader = some h ∧ h.height = v := by
    rw [ExtBlock.getHeight, header] at height
    cases found : fprop.getHeader with
    | none =>
      rw [found] at height
      exact absurd height (by simp; omega)
    | some h => exact ⟨h,rfl,by rw [found] at height; exact height⟩
  have signed := backs _ (authentic.pending i honest _ member _ List.mem_cons_self _ inside verifies)
  rw [present] at signed verifies
  obtain ⟨b',held,bytes⟩ := agree.signed _ signed (headerHeight_header h)
  have same : b'.extHeader = some h := marshalHeader_some positive bytes
  refine ⟨b',held,same.trans (header.trans present).symm,?_⟩
  exact (agree.pending i honest _ member fprop rfl h present rfl verifies b' held same).trans txs.symm

include regular authentic backs agree moves keeps honest in
theorem BodiesAgree.stores (positive : 1 ≤ v) (leads : leaderOf c.size v ∈ c.honestNodes)
    (inside : leaderOf c.size v < c.size) {b : ExtBlock} (held : (t.nodes i).state.bc.blocksByHeight.lookup v = some b) :
    (b.getExtra = emptyExtra → b.getTxs = []) ∧ (b.getExtra ≠ emptyExtra →
      ∃ b', t.leaderBlock c v = some b' ∧ b'.extHeader = b.extHeader ∧ b'.getTxs = b.getTxs) := by
  have kept {b' : ExtBlock} (old : s.leaderBlock c v = some b') : t.leaderBlock c v = some b' :=
    agree.leader_kept regular authentic moves keeps leads old
  rcases keeps.stores regular authentic moves honest with ⟨same,_⟩ | ⟨order,job,jobs,b',_,_,extends_,height,_,stored,_⟩
  · rw [same] at held
    refine ⟨agree.empty i honest b held,fun nonempty => ?_⟩
    obtain ⟨b',old,header,txs⟩ := agree.stored i honest b held nonempty
    exact ⟨b',kept old,header,txs⟩
  obtain rfl := Option.some.inj (held.symm.trans stored)
  cases extends_ with
  | empty _ _ extra txs _ => exact ⟨fun _ => txs,absurd extra⟩
  | own cert own _ _ =>
    refine ⟨fun extra => ?_,fun _ => ⟨_,?_,rfl,rfl⟩⟩
    · exact absurd (show ([] : Bytes) = emptyExtra from extra) (by decide)
    · rw [System.leaderBlock, ← own, held]
  | forwarded fprop _ _ header txs member verifies =>
    obtain ⟨b',old,sameHeader,sameTxs⟩ :=
      agree.forwarded authentic backs honest positive inside height header txs member verifies
    refine ⟨fun extra => ?_,fun _ => ⟨b',kept old,sameHeader,sameTxs⟩⟩
    rw [← sameTxs]
    refine agree.empty _ leads b' old ?_
    rw [ExtBlock.getExtra, sameHeader]
    exact extra

end Step

section Run

variable (sincere : c.Sincere) (positive : 1 ≤ v) (leads : leaderOf c.size v ∈ c.honestNodes)

theorem BodiesAgree.initial : BodiesAgree c p v (System.start c) := by
  have none (i : Nat) : ((System.start c).nodes i).state.bc.blocksByHeight.lookup v = none :=
    Finmap.lookup_empty _
  refine ⟨?_,?_,?_,?_,?_,?_,?_⟩
  · intro data made
    exact absurd made (by simp [System.made,System.start])
  · intro b held
    exact absurd held (by rw [System.leaderBlock, none]; simp)
  · intro b held
    exact absurd held (by rw [System.leaderBlock, none]; simp)
  · exact fun _ member => absurd member List.not_mem_nil
  · exact fun _ _ _ member => absurd member List.not_mem_nil
  · intro i _ b held
    exact absurd held (by rw [none]; simp)
  · intro i _ b held
    exact absurd held (by rw [none]; simp)

include sincere positive leads in
theorem BodiesAgree.moved (regular : c.Regular) (authentic : Authentic c p trace s)
    (backs : ∀ data, HasSigned p trace s (leaderOf c.size v) data → s.made (leaderOf c.size v) data)
    (agree : BodiesAgree c p v s) {event : NodeEvent} {sends : List Outgoing} (moves : Moves c p s e t i event sends)
    (keeps : KeepsBodies c p v s e) (honest : i ∈ c.honestNodes ∨ ∃ m, event = .receive m) : BodiesAgree c p v t := by
  have inside := ((c.mem_honestNodes _).mp leads).1
  have kept {y : Proposal} (backed : Backed c p trace s (marshalHeader y.getHeader,y.miningProof))
      (faithful : Faithful c p v s y) : Faithful c p v t y :=
    agree.faithful regular authentic backs moves keeps leads inside backed faithful
  constructor
  case signed => exact fun data => agree.signs regular authentic backs moves keeps sincere leads
  case proposed => exact fun b => agree.proposes regular authentic moves keeps sincere leads
  case reached =>
    intro b held
    rcases agree.leader_moves regular authentic moves keeps leads with ⟨same,above⟩ | ⟨_,_,reached⟩
    · exact (agree.reached b (same.symm.trans held)).trans above
    · exact reached
  case net =>
    intro x member y carried
    rcases moves.net x member with old | new
    · exact kept (authentic.net x old _ (SyncHSMsg.carried_signatures carried)) (agree.net x old y carried)
    · have sent := mem_packets_message new
      rcases honest with honest | ⟨m,rfl⟩
      · exact agree.carries regular authentic backs moves keeps honest sincere leads inside (Or.inr ⟨_,sent,carried⟩)
      · rw [moves.case.receives] at sent
        contradiction
  case pending =>
    refine moves.each (P := fun _ node => ∀ job ∈ node.pending, ∀ y, job.carried = some y → Faithful c p v t y) ?_ ?_
    · intro k honest job member y carried
      exact kept (authentic.pending k honest job member _ (Job.carried_signatures carried))
        (agree.pending k honest job member y carried)
    · intro honest job member y carried
      exact agree.carries regular authentic backs moves keeps honest sincere leads inside (Or.inl ⟨job,member,carried⟩)
  case empty =>
    refine moves.each (P := fun _ node => ∀ b, node.state.bc.blocksByHeight.lookup v = some b →
      b.getExtra = emptyExtra → b.getTxs = []) agree.empty fun honest b held => ?_
    exact (agree.stores regular authentic backs moves keeps honest positive leads inside held).1
  case stored =>
    refine moves.each (P := fun _ node => ∀ b, node.state.bc.blocksByHeight.lookup v = some b →
      b.getExtra ≠ emptyExtra → ∃ b', t.leaderBlock c v = some b' ∧ b'.extHeader = b.extHeader ∧
        b'.getTxs = b.getTxs) ?_ ?_
    · intro k honest b held nonempty
      obtain ⟨b',old,same⟩ := agree.stored k honest b held nonempty
      exact ⟨b',agree.leader_kept regular authentic moves keeps leads old,same⟩
    · intro honest b held
      exact (agree.stores regular authentic backs moves keeps honest positive leads inside held).2

include sincere positive leads in
theorem BodiesAgree.step (regular : c.Regular) (authentic : Authentic c p trace s)
    (backs : ∀ data, HasSigned p trace s (leaderOf c.size v) data → s.made (leaderOf c.size v) data)
    (agree : BodiesAgree c p v s) (admitted : s.enabled c p e) (keeps : KeepsBodies c p v s e)
    (case : SystemCase c p s e t) : BodiesAgree c p v t := by
  rcases case.moves with ⟨dest,m,rfl,rfl⟩ | ⟨i,event,sends,moves⟩
  · refine ⟨agree.signed,agree.proposed,agree.reached,?_,agree.pending,agree.empty,agree.stored⟩
    intro x member y carried
    rcases List.mem_append.mp member with old | new
    · exact agree.net x old y carried
    · obtain rfl := List.mem_singleton.mp new
      exact keeps y carried
  · exact agree.moved sincere positive leads regular authentic backs moves keeps (moves.honest admitted)

end Run

/-- Honest nodes that hold blocks with one header at the height of the view hold the same
transactions, those of the block that the leader has proposed. -/
theorem transactions_agree (regular : c.Regular) (sincere : c.Sincere) (law : p.Unforgeable c.size) (positive : 1 ≤ v)
    (leads : leaderOf c.size v ∈ c.honestNodes)
    (run : ((systemMachine c p).restrict (KeepsBodies c p v)).Run (System.start c) trace s) {j : Nat}
    (first : i ∈ c.honestNodes) (second : j ∈ c.honestNodes) {b b' : ExtBlock}
    (held : (s.nodes i).state.bc.blocksByHeight.lookup v = some b)
    (held' : (s.nodes j).state.bc.blocksByHeight.lookup v = some b') (same : b.extHeader = b'.extHeader) :
    b.getTxs = b'.getTxs ∧ (b.getExtra ≠ emptyExtra → ∃ proposed, s.leaderBlock c v = some proposed ∧
      s.made (leaderOf c.size v) (marshalHeader proposed.extHeader) ∧ proposed.extHeader = b.extHeader ∧
      proposed.getTxs = b.getTxs) := by
  have agree : BodiesAgree c p v s := by
    refine run.history (I := fun _ s => BodiesAgree c p v s) .initial ?_
    intro past s e t earlier agree admitted moved
    exact agree.step sincere positive leads regular (run_authentic law regular earlier.unrestrict)
      (fun data signed => signed.made earlier.unrestrict leads) admitted.1 admitted.2 (System.step_cases moved)
  have extra : b.getExtra = b'.getExtra := by rw [ExtBlock.getExtra, same, ExtBlock.getExtra]
  by_cases empty : b.getExtra = emptyExtra
  · refine ⟨?_,absurd empty⟩
    rw [agree.empty i first b held empty, agree.empty j second b' held' (extra.symm.trans empty)]
  · obtain ⟨own,stored,header,txs⟩ := agree.stored i first b held empty
    obtain ⟨own',stored',_,txs'⟩ := agree.stored j second b' held' (extra ▸ empty)
    obtain rfl := Option.some.inj (stored.symm.trans stored')
    refine ⟨txs.symm.trans txs',fun nonempty => ⟨own,stored,agree.proposed own stored ?_,header,txs⟩⟩
    rw [ExtBlock.getExtra, header]
    exact nonempty

end Bodies

/-- Both honest nodes hold the leader's command, with a traitor that forwards it unchanged. -/
theorem forwarded_command_agrees : ∃ s : System, ∃ b b' : ExtBlock,
    (s.nodes 0).state.bc.blocksByHeight.lookup 1 = some b ∧ (s.nodes 1).state.bc.blocksByHeight.lookup 1 = some b' ∧
      b.getExtra ≠ emptyExtra ∧ b.getTxs = b'.getTxs := by
  obtain ⟨s,run,present,same,nonempty⟩ := Guarded.Machine.reaches
    (fun s : System => ((s.nodes 0).state.bc.blocksByHeight.lookup 1).isSome ∧
      ((s.nodes 1).state.bc.blocksByHeight.lookup 1).map ExtBlock.extHeader =
        ((s.nodes 0).state.bc.blocksByHeight.lookup 1).map ExtBlock.extHeader ∧
      ((s.nodes 0).state.bc.blocksByHeight.lookup 1).map ExtBlock.getExtra ≠ some emptyExtra)
    (show (((systemMachine oneTraitor transparent).restrict (KeepsBodies oneTraitor transparent 1)).replay
      traitorForwards (System.start oneTraitor)).any _ = true by decide +kernel)
  obtain ⟨b,held⟩ := Option.isSome_iff_exists.mp present
  rw [held] at same nonempty
  obtain ⟨b',held',header⟩ := Option.map_eq_some_iff.mp same
  have sincere : oneTraitor.Sincere := fun _ _ => ⟨TimerMode.noConfusion,TimerMode.noConfusion⟩
  refine ⟨s,b,b',held,held',fun empty => nonempty (congrArg some empty),?_⟩
  exact (transactions_agree (complete_regular _ _ _ _ _) sincere (transparent_unforgeable (by decide))
    le_rfl (by decide) run (by decide) (by decide) held held' header.symm).1

/-- The traitor forwards the leader's header and signature with other transactions. -/
def alteredForward : SyncHSMsg :=
  .prop { signForward transparent (oneTraitor.config 2) firstProposal with
    block := firstProposal.block.map fun b => { b with body := some ⟨[[9]],[]⟩ } }

def traitorAlters : List SystemEvent :=
  [.command 0 [1],.command 1 [1],.work 0 0 [],.work 0 0 [],.work 1 0 [],.deliver 0,.work 1 0 [],
    .inject 0 traitorForward,.inject 1 alteredForward,.deliver 0,.deliver 0,.deliver 0,
    .work 0 0 [],.work 0 0 [],.work 1 0 [],.work 1 0 [],.work 1 0 []]

theorem altered_body_is_stored : ∃ s : System,
    ((systemMachine oneTraitor transparent).restrict fun s e =>
      Synchronous oneTraitor s e ∧ ByzantineMinority oneTraitor s).Run (System.start oneTraitor) traitorAlters s ∧
    ByzantineMinority oneTraitor s ∧ leaderOf oneTraitor.size 1 = 0 ∧ 0 ∈ oneTraitor.honestNodes ∧
    1 ∈ oneTraitor.honestNodes ∧ ((s.nodes 0).state.bc.blocksByHeight.lookup 1).map ExtBlock.extHeader =
      ((s.nodes 1).state.bc.blocksByHeight.lookup 1).map ExtBlock.extHeader ∧
    ((s.nodes 0).state.bc.blocksByHeight.lookup 1).map ExtBlock.getTxs = some [[1]] ∧
    ((s.nodes 1).state.bc.blocksByHeight.lookup 1).map ExtBlock.getTxs = some [[9]] := by
  obtain ⟨s,run,minority,stored⟩ := Guarded.Machine.reaches
    (fun s : System => ByzantineMinority oneTraitor s ∧
      ((s.nodes 0).state.bc.blocksByHeight.lookup 1).map ExtBlock.extHeader =
        ((s.nodes 1).state.bc.blocksByHeight.lookup 1).map ExtBlock.extHeader ∧
      ((s.nodes 0).state.bc.blocksByHeight.lookup 1).map ExtBlock.getTxs = some [[1]] ∧
      ((s.nodes 1).state.bc.blocksByHeight.lookup 1).map ExtBlock.getTxs = some [[9]])
    (show (((systemMachine oneTraitor transparent).restrict fun s e =>
      Synchronous oneTraitor s e ∧ ByzantineMinority oneTraitor s).replay
        traitorAlters (System.start oneTraitor)).any _ = true by decide +kernel)
  exact ⟨s,run,minority,by decide,by decide,by decide,stored⟩

end ReputationSMR
