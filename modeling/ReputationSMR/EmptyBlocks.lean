import ReputationSMR.ChainSafety
import ReputationSMR.Transcripts

/-! Certificates that are accepted without a signature. `IsCertValid` takes a block whose
extra data is one byte for an empty block that the node appended itself, wherever the block
came from. -/
namespace ReputationSMR

open Wire FiniteMap

/-- The certificate passes although the key library fails on every signature. -/
def acceptsUnsigned (p : Platform) (cfg : NodeConfig) (n : SyncHS) (bc : BlockCertificate) : Prop :=
  isCertValid { p with verify := fun _ _ _ => none } cfg n bc = some true

instance (p : Platform) (cfg : NodeConfig) (n : SyncHS) (bc : BlockCertificate) :
    Decidable (acceptsUnsigned p cfg n bc) := inferInstanceAs (Decidable (_ = _))

/-- At some point of the run the node worked on a job that made it append the empty block
on top of its head. -/
def CreatedEmpty (p : Platform) (cfg : NodeConfig) (trace : List NodeEvent) (b : ExtBlock) : Prop :=
  ∃ earlier index order later node job, trace = earlier ++ .work index order :: later ∧
    (nodeMachine p cfg).Run .init earlier node ∧ node.pending[index]? = some job ∧
    extension p cfg node.state job = some b ∧ node.state.nextEmptyBlock p = some b

/-- The condition: no follower completes its set of forwards with a block whose extra data
is one byte. -/
def LongExtra (p : Platform) (cfg : NodeConfig) (node : Node) : NodeEvent → Prop
  | .work index _ => ∀ job ∈ node.pending[index]?, ∀ fprop ∈ job.heldForward,
      ∀ ep ∈ node.state.completes p cfg fprop, ep.extBlock.getExtra.length ≠ 1
  | _ => True

instance (p : Platform) (cfg : NodeConfig) (node : Node) (e : NodeEvent) : Decidable (LongExtra p cfg node e) :=
  match e with
  | .work index _ => inferInstanceAs (Decidable (∀ job ∈ node.pending[index]?, _))
  | .connect | .command _ | .receive _ | .callback => isTrue trivial

/-! ## Where blocks come from -/

section Origins

variable {p : Platform} {cfg : NodeConfig} {trace : List NodeEvent} {n : SyncHS} {b : ExtBlock} {job : Job}

theorem CreatedEmpty.snoc (created : CreatedEmpty p cfg trace b) (e : NodeEvent) :
    CreatedEmpty p cfg (trace ++ [e]) b := by
  obtain ⟨earlier,index,order,later,node,job,rfl,rest⟩ := created
  exact ⟨earlier,index,order,later ++ [e],node,job,by simp,rest⟩

theorem CreatedEmpty.extra (created : CreatedEmpty p cfg trace b) : b.getExtra = emptyExtra := by
  obtain ⟨_,_,_,_,node,_,_,_,_,_,empty⟩ := created
  obtain ⟨cert,_,rfl⟩ := Option.map_eq_some_iff.mp empty
  rfl

theorem extension_short (extending : extension p cfg n job = some b) (short : b.getExtra.length = 1) :
    (∃ fprop ep, job.heldForward = some fprop ∧ n.completes p cfg fprop = some ep ∧ b = ep.extBlock) ∨
      n.nextEmptyBlock p = some b := by
  cases job with
  | round =>
    simp only [extension] at extending
    split at extending
    next => exact Or.inr extending
    next =>
      split at extending
      next =>
        -- the leader's own proposal has no extra data
        obtain ⟨cert,_,rfl⟩ := Option.map_eq_some_iff.mp extending
        contradiction
      next => contradiction
  | proposeChannel fprop =>
    obtain ⟨ep,completes,rfl⟩ := Option.map_eq_some_iff.mp extending
    exact Or.inl ⟨fprop,ep,rfl,completes,rfl⟩
  | eqEvidenceChannel e =>
    simp only [extension] at extending
    split at extending
    next => exact Or.inr extending
    next => contradiction
  | _ => contradiction

end Origins

/-! ## Reputations are positive -/

def SyncHS.PositiveReputations (n : SyncHS) : Prop := ∀ v i x, at2 n.reputationMap v i = some x → 0 < x

section Positive

variable {p : Platform} {cfg : NodeConfig} {n n' : SyncHS} {node node' : Node} {e : NodeEvent}

theorem SyncHS.PositiveReputations.insert {f : Nat → ℚ} {ids : List Nat} {view : Nat} (positive : n.PositiveReputations)
    (scores : ∀ i, 0 < f i) (map : n'.reputationMap =
      n.reputationMap.insert view (fill f ids (row n.reputationMap view))) : n'.PositiveReputations := by
  intro v i x found
  rw [map, at2_insert] at found
  split at found
  next here =>
    rw [lookup_fill] at found
    split at found
    next => exact Option.some.inj found ▸ scores i
    next => exact positive view i x (by rwa [at2_eq_row])
  next => exact positive v i x found

theorem SyncHS.PositiveReputations.step (positive : node.state.PositiveReputations) {sends : List Outgoing}
    (case : NodeCase p cfg node e node' sends) : node'.state.PositiveReputations := by
  cases case with
  | connected => exact positive.insert (fun _ => initialNodescore_pos) (initialReputationMap_eq _)
  | commanded cmd n' jobs case =>
    cases case with
    | pooled _ _ _ _ _ _ => exact positive
  | received m => exact positive
  | worked index order job n' jobs sends found case =>
    intro v i x entry
    rw [case.within.reputations] at entry
    exact positive v i x entry
  | calledBack n' acks case =>
    cases case with
    | kept _ _ | advanced _ _ _ _ =>
      exact positive.insert (fun i => Counters.nodeScore_pos p _) rfl

theorem SyncHS.PositiveReputations.benchmark (positive : n.PositiveReputations) (view : Nat) :
    0 ≤ n.getCertBenchMark view := by
  have nonneg : 0 ≤ total (row n.reputationMap view) := by
    apply Finset.sum_nonneg
    intro i member
    obtain ⟨x,found⟩ := (mem_keys_iff _ i).mp member
    simpa [found] using (positive view i x (by rwa [at2_eq_row])).le
  rw [SyncHS.getCertBenchMark]
  linarith

/-- A certificate that needs no signature is for genesis or for a block with one byte of
extra data. -/
theorem SyncHS.PositiveReputations.unsigned {bc : BlockCertificate} (positive : n.PositiveReputations)
    (accepts : acceptsUnsigned p cfg n bc) : (bc.getBlockInfo p).1 = emptyHash ∨
      ∃ b, n.bc.blocksByHash.lookup (bc.getBlockInfo p).1 = some b ∧ b.getExtra.length = 1 := by
  by_cases genesis : (bc.getBlockInfo p).1 = emptyHash
  · exact Or.inl genesis
  refine Or.inr ?_
  have valid : isCertValid { p with verify := fun _ _ _ => none } cfg n bc = some true := accepts
  rw [isCertValid] at valid
  split at valid
  next => contradiction
  next =>
  rw [if_neg (show ¬(bc.getBlockInfo { p with verify := fun _ _ _ => none }).1 = emptyHash from genesis)] at valid
  split at valid
  next => contradiction
  next b found =>
    split at valid
    next short => exact ⟨b,found,short⟩
    next =>
      -- the first signer fails, and without signers there is no weight
      cases signers : bc.getSigners with
      | nil =>
        rw [signers] at valid
        have above := of_decide_eq_true (Option.some.inj valid)
        exact absurd above (not_lt.mpr (positive.benchmark _))
      | cons id rest =>
        rw [signers] at valid
        simp only [certWeight, if_true] at valid
        split at valid
        next => contradiction
        next => cases valid
        next sum counted =>
          split at counted
          next => cases counted
          next => split at counted <;> cases counted

end Positive

/-! ## Runs -/

section Runs

variable {p : Platform} {cfg : NodeConfig} {trace : List NodeEvent} {node node' : Node} {e : NodeEvent}

/-- Every short block that the node knows is an empty block of its own. -/
def OwnEmptyBlocks (p : Platform) (cfg : NodeConfig) (trace : List NodeEvent) (bc : BlockChain) : Prop :=
  ∀ h b, bc.blocksByHash.lookup h = some b → b.getExtra.length = 1 → CreatedEmpty p cfg trace b

theorem OwnEmptyBlocks.snoc {bc : BlockChain} (own : OwnEmptyBlocks p cfg trace bc) (e : NodeEvent) :
    OwnEmptyBlocks p cfg (trace ++ [e]) bc :=
  fun h b found short => (own h b found short).snoc e

theorem OwnEmptyBlocks.extend {bc : BlockChain} {b : ExtBlock} (own : OwnEmptyBlocks p cfg trace bc)
    (created : b.getExtra.length = 1 → CreatedEmpty p cfg trace b) :
    OwnEmptyBlocks p cfg trace (bc.extend p b) := by
  intro h b' found short
  rw [BlockChain.extend, BlockChain.store_byHash] at found
  split at found
  next =>
    obtain rfl := Option.some.inj found
    exact created short
  next => exact own h b' found short

theorem OwnEmptyBlocks.step (own : OwnEmptyBlocks p cfg trace node.state.bc)
    (run : (nodeMachine p cfg).Run .init trace node) (long : LongExtra p cfg node e)
    (step : NodeStep p cfg node e node') : OwnEmptyBlocks p cfg (trace ++ [e]) node'.state.bc := by
  have kept := own.snoc e
  cases step with
  | outside _ _ jobs _ _ bc _ _ _ _ _ => exact bc ▸ kept
  | calledBack n' effect case => cases case <;> exact kept
  | worked index order job n' effect found case =>
    have extended (b : ExtBlock) (extending : extension p cfg node.state job = some b) :
        OwnEmptyBlocks p cfg (trace ++ [.work index order]) (node.state.bc.extend p b) := by
      refine kept.extend fun short => ?_
      rcases extension_short extending short with ⟨fprop,ep,held,completes,rfl⟩ | empty
      · exact absurd short (long job found fprop held ep completes)
      · exact ⟨trace,index,order,[],node,job,rfl,run,found,extending,empty⟩
    cases case.chain with
    | quiet bc _ _ => exact bc ▸ kept
    | stored _ _ _ bc _ _ => exact bc ▸ kept
    | certified _ _ _ _ _ bc _ _ _ => exact bc ▸ kept
    | extended b extending bc _ _ | emptied b extending bc _ _ => exact bc ▸ extended b extending

/-- In every run in which no forwarded block with one byte of extra data completes a set,
a certificate that is accepted without a signature is for genesis or for an empty block that
the node created itself. -/
theorem unsigned_certificates_are_for_own_blocks
    (run : ((nodeMachine p cfg).restrict (LongExtra p cfg)).Run .init trace node) (bc : BlockCertificate)
    (accepts : acceptsUnsigned p cfg node.state bc) : (bc.getBlockInfo p).1 = emptyHash ∨
      ∃ b, node.state.bc.blocksByHash.lookup (bc.getBlockInfo p).1 = some b ∧ CreatedEmpty p cfg trace b := by
  have positive : node.state.PositiveReputations := by
    refine run.invariant (I := fun node => node.state.PositiveReputations) ?_ ?_
    · intro v i x found
      contradiction
    · intro s e t positive _ moved
      obtain ⟨_,case⟩ := nodeMachine_cases moved
      exact positive.step case
  have own : OwnEmptyBlocks p cfg trace node.state.bc := by
    refine run.history (I := fun past node => OwnEmptyBlocks p cfg past node.state.bc) ?_ ?_
    · intro h b found
      contradiction
    · intro past s e t before own admitted moved
      exact own.step before.unrestrict admitted.2 (nodeMachine_step moved)
  rcases positive.unsigned accepts with genesis | ⟨b,found,short⟩
  · exact Or.inl genesis
  · exact Or.inr ⟨b,found,own _ b found short⟩

end Runs

def firstEvidence : EquivocationEvidence :=
  ⟨some (signEvidence transparent (.complete 3 1 true .plain 2) ⟨0,1⟩),some (proposalAt 1),some (proposalAt 2)⟩

def bareCert (b : ExtBlock) : BlockCertificate := emptyCertificate (b.getBlockHash transparent) 1

/-- Node one accepts evidence, appends an empty block and takes its certificate. -/
theorem own_empty_block_needs_no_signature : ∃ node : Node, ∃ b,
    node.state.bc.blocksByHash.lookup ((bareCert (createAnEmptyBlock transparent [] genesisCert 1 emptyExtra)).getBlockInfo
      transparent).1 = some b ∧ CreatedEmpty transparent (.complete 3 1 true .plain 1)
        [.connect,.receive (.eqevidence firstEvidence),.work 0 []] b := by
  obtain ⟨node,run,accepts⟩ := Guarded.Machine.reaches
    (fun node : Node => acceptsUnsigned transparent (.complete 3 1 true .plain 1) node.state
      (bareCert (createAnEmptyBlock transparent [] genesisCert 1 emptyExtra)))
    (show (((nodeMachine transparent (.complete 3 1 true .plain 1)).restrict
      (LongExtra transparent (.complete 3 1 true .plain 1))).replay
      [.connect,.receive (.eqevidence firstEvidence),.work 0 []] .init).any _ = true by decide +kernel)
  exact ⟨node,(unsigned_certificates_are_for_own_blocks run _ accepts).resolve_left (by decide +kernel)⟩

def proposalWith (extra : Bytes) : Proposal :=
  newCandidateProposal transparent (.complete 3 1 true .plain 0) .init [] genesisCert 1 extra

/-- A leader puts one byte into the extra data of its block; once node one has completed
its set of forwards, a certificate for the block passes without a signature. -/
theorem short_block_needs_no_signature : ∃ node b,
    (nodeMachine transparent (.complete 3 1 true .plain 1)).Run .init (forwardsOf (proposalWith [1])) node ∧
    node.state.bc.blocksByHash.lookup ((bareCert b).getBlockInfo transparent).1 = some b ∧
    acceptsUnsigned transparent (.complete 3 1 true .plain 1) node.state (bareCert b) ∧
    ((bareCert b).getBlockInfo transparent).1 ≠ emptyHash ∧
    ¬CreatedEmpty transparent (.complete 3 1 true .plain 1) (forwardsOf (proposalWith [1])) b := by
  obtain ⟨node,run,found,accepts⟩ := Guarded.Machine.reaches
    (fun node : Node => node.state.bc.blocksByHash.lookup ((bareCert (candidateBlock transparent [] genesisCert 1
        [1])).getBlockInfo transparent).1 = some (candidateBlock transparent [] genesisCert 1 [1]) ∧
      acceptsUnsigned transparent (.complete 3 1 true .plain 1) node.state
        (bareCert (candidateBlock transparent [] genesisCert 1 [1])))
    (show ((nodeMachine transparent (.complete 3 1 true .plain 1)).replay (forwardsOf (proposalWith [1]))
      .init).any _ = true by decide +kernel)
  refine ⟨node,_,run,found,accepts,by decide +kernel,fun created => ?_⟩
  exact absurd created.extra (by decide)

end ReputationSMR
