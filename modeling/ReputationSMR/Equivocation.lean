import ReputationSMR.RoundEnds

/-! A view whose leader sends one of two proposals to each of the others and does nothing
else, seen from one node. Detection compares the forwards that a node reads; recording
needs evidence, which may arrive before any forward. -/
namespace ReputationSMR

open Wire FiniteMap

/-- The common state at the start of the view, the two versions of the proposal with
what a receiver decodes, and the version that each node gets. -/
structure Equivocation where
  common : Common
  prop : Bool → Proposal
  ext : Bool → ExtProposal
  gets : Nat → Bool

/-- The common state after the empty block and the record of the leader. -/
def Common.equivocated (p : Platform) (C : Common) : Common :=
  { C with
    bc := C.bc.extend p (C.emptyBlock p)
    equiproposalMap := SyncHS.recordLeader C.equiproposalMap C.view C.leader }

/-! ## Checks after an empty block -/

section Checks

variable {p : Platform} {cfg : NodeConfig} {n n' : SyncHS} {C : Common} {ep : ExtProposal}

theorem checkProposal_common (common : n'.common = n.common) :
    checkProposal p cfg n' ep = checkProposal p cfg n ep :=
  checkProposal_congr (congrArg Common.view common) (congrArg Common.leader common) (congrArg Common.bc common)
    (congrArg Common.reputationMap common)

theorem checkProposal_equivocated (before : n.common = C) (after : n'.common = C.equivocated p)
    (checked : checkProposal p cfg n ep = some true) : checkProposal p cfg n' ep = some true := by
  subst before
  exact checkProposal_extend Common.emptyBlock_extra (congrArg Common.view after) (congrArg Common.leader after)
    (congrArg Common.reputationMap after) (congrArg Common.bc after) checked

theorem signedBy_of_checked (checked : checkProposal p cfg n ep = some true) :
    signedBy p cfg n.leader (marshalHeader ep.proposal.getHeader) ep.proposal.miningProof = some true := by
  obtain ⟨_,_,key,found,signed,_⟩ := checkProposal_eq_true.mp checked
  simp [signedBy,found,signed]

end Checks

namespace Equivocation

variable (p : Platform) (z : Setting) (E : Equivocation)

/-! ## The messages -/

def forward (j : Nat) : Proposal := signForward p (z.config j) (E.prop (E.gets j))

def forwardExt (j : Nat) : ExtProposal := { E.ext (E.gets j) with proposal := E.forward p z j }

def Follower (j : Nat) : Prop := j < z.size ∧ j ≠ E.common.leader

def IsEvidence (e : EquivocationEvidence) : Prop :=
  ∃ i < z.size, ∃ a b, e = ⟨some (signEvidence p (z.config i) ⟨E.common.leader,E.common.view⟩),
    some (E.forward p z a),some (E.forward p z b)⟩

structure Good : Prop where
  leader : E.common.leader < z.size
  decoded : ∀ version, ExtProposal.fromProto p (E.prop version) = some (E.ext version)
  sender : ∀ version, (E.prop version).forwardSender = E.common.leader
  miner : ∀ version, (E.prop version).miner = E.common.leader
  differ : (E.ext false).extBlock.getBlockHash p ≠ (E.ext true).extBlock.getBlockHash p
  unrecorded : E.common.equiproposalMap.lookup E.common.view = none
  both : ∀ version, ∃ j, E.Follower z j ∧ E.gets j = version

/-! ## The invariant of a node -/

/-- The work that the view leaves pending at node `i`. -/
def Allows (i : Nat) : Job → Prop
  | .round => i ≠ E.common.leader
  | .forward x => i ≠ E.common.leader ∧ x = E.prop (E.gets i)
  | .proposeChannel x => ∃ j, E.Follower z j ∧ x = E.forward p z j
  | .sendEqProEvidence x y => ∃ a b, x = E.forward p z a ∧ y = E.forward p z b
  | .eqEvidenceChannel e => E.IsEvidence p z e
  | _ => False

/-- The first forward that the node read was that of `first`, and all that it has counted
are of the same version. -/
structure Seen (n : SyncHS) (first : Option Nat) : Prop where
  reference : n.proposalByviewMap.lookup E.common.view = first.map (E.forward p z)
  senders : ∀ j ∈ (row n.fpropMap E.common.view).keys, E.Follower z j ∧ ∃ k ∈ first, E.gets j = E.gets k

/-- A node that has taken part in the view so far. -/
structure Watching (i : Nat) (node : Node) : Prop where
  common : node.state.common = E.common ∨ node.state.common = E.common.equivocated p
  headCert : node.state.common = E.common → ∃ cert,
    node.state.certMap.lookup E.common.bc.head = some cert ∧
      E.common.bc.hashAt p E.common.bc.head = some (cert.getBlockInfo p).1
  checked : ∀ version, checkProposal p (z.config i) node.state (E.ext version) = some true
  unwithheld : node.state.withholdingProposalInject = false
  seen : ∃ first, E.Seen p z node.state first
  clocked : Clocked z node.state.clock node.pending
  led : i = E.common.leader → node.state.timers = 1
  jobs : ∀ job ∈ node.pending, E.Allows p z i job

variable {p z E} {i j index : Nat} {node : Node} {n n' : SyncHS} {order : List Nat}

theorem Watching.view (watching : E.Watching p z i node) : node.state.view = E.common.view := by
  rcases watching.common with same | same <;> exact congrArg Common.view same

theorem Watching.leader (watching : E.Watching p z i node) : node.state.leader = E.common.leader := by
  rcases watching.common with same | same <;> exact congrArg Common.leader same

/-- Forwards of one version never make a complete set. -/
theorem Good.short (good : E.Good p z) (keys : Finset Nat) (version : Bool)
    (one : ∀ j ∈ keys, E.Follower z j ∧ E.gets j = version) : keys.card < z.size - 1 := by
  obtain ⟨m,⟨inside,follower⟩,other⟩ := good.both (!version)
  have everyone : ((Finset.range z.size).erase E.common.leader).card = z.size - 1 := by
    rw [Finset.card_erase_of_mem (Finset.mem_range.mpr good.leader), Finset.card_range]
  rw [← everyone]
  refine Finset.card_lt_card (Finset.ssubset_iff_subset_ne.mpr ⟨?_,?_⟩)
  · intro j member
    obtain ⟨⟨within,notLeader⟩,_⟩ := one j member
    exact Finset.mem_erase.mpr ⟨notLeader,Finset.mem_range.mpr within⟩
  · intro all
    have member : m ∈ keys := all ▸ Finset.mem_erase.mpr ⟨follower,Finset.mem_range.mpr inside⟩
    have same := (one m member).2
    rw [other] at same
    cases version <;> contradiction

theorem Seen.short (good : E.Good p z) {first : Option Nat} (seen : E.Seen p z n first) :
    size (row n.fpropMap E.common.view) < z.size - 1 := by
  cases first with
  | none =>
    refine good.short _ true fun j member => ?_
    obtain ⟨_,k,absent,_⟩ := seen.senders j member
    cases absent
  | some k =>
    refine good.short _ (E.gets k) fun j member => ?_
    obtain ⟨follower,k',same,version⟩ := seen.senders j member
    cases same
    exact ⟨follower,version⟩

theorem Watching.takes (good : E.Good p z) (evidence : z.startEvidence = true) (inside : i < z.size)
    (watching : E.Watching p z i node) {job : Job} (member : job ∈ node.pending) :
    takes (z.config i) node.state job = true := by
  have allowed := watching.jobs job member
  cases job with
  | proposeChannel x =>
    obtain ⟨first,seen⟩ := watching.seen
    refine decide_eq_true ?_
    rw [SyncHS.readsForwards, Setting.config_card inside, watching.view]
    exact seen.short good
  | eqEvidenceChannel e => exact evidence
  | maliPropseChannel | maliProEvidenceChannel | maliVoteEvidenceChannel => exact allowed.elim
  | _ => rfl

/-! ## What a step does for the others -/

variable (p z E) in
/-- The node has the forward of `j`, has counted it or needs no more forwards. -/
def HasForward (node : Node) (j : Nat) : Prop :=
  .proposeChannel (E.forward p z j) ∈ node.pending ∨ node.state.equivocatingProposalInject = true ∨
    j ∈ (row node.state.fpropMap E.common.view).keys

variable (p z E) in
def HasEvidence (node : Node) : Prop :=
  (∃ e, E.IsEvidence p z e ∧ .eqEvidenceChannel e ∈ node.pending) ∨
    node.state.common = E.common.equivocated p

def Reports (node : Node) : Prop := ∃ x y, .sendEqProEvidence x y ∈ node.pending

variable (p z E) in
def Forwarded (i : Nat) (node : Node) (sends : List Outgoing) : Prop :=
  .proposeChannel (E.forward p z i) ∈ node.pending ∧ .broadcast (.prop (E.forward p z i)) ∈ sends

variable (p z E) in
def Reported (node : Node) (sends : List Outgoing) : Prop :=
  ∃ e, E.IsEvidence p z e ∧ .eqEvidenceChannel e ∈ node.pending ∧ .broadcast (.eqevidence e) ∈ sends

variable (p z E) in
/-- Followers send their forward, and nodes that have seen both versions the evidence. -/
def Sends (i : Nat) (o : Outgoing) : Prop :=
  o = .broadcast (.prop (E.forward p z i)) ∧ i ≠ E.common.leader ∨
    ∃ e, E.IsEvidence p z e ∧ o = .broadcast (.eqevidence e)

variable (p z E) in
/-- Nothing is lost: it is still pending, or what follows from it is done and sent. -/
structure Moves (i : Nat) (node node' : Node) (sends : List Outgoing) : Prop where
  forwards : ∀ j, E.HasForward p z node j → E.HasForward p z node' j
  evidence : E.HasEvidence p z node → E.HasEvidence p z node'
  forward : .forward (E.prop (E.gets i)) ∈ node.pending →
    .forward (E.prop (E.gets i)) ∈ node'.pending ∨ E.Forwarded p z i node' sends
  flagged : i ≠ E.common.leader → node'.state.equivocatingProposalInject = true →
    node.state.equivocatingProposalInject = true ∨ Reports node'
  reports : Reports node → Reports node' ∨ E.Reported p z node' sends
  sends : ∀ o ∈ sends, E.Sends p z i o

/-! ## Forwards -/

theorem decode (good : E.Good p z) (j : Nat) :
    ExtProposal.fromProto p (E.forward p z j) = some (E.forwardExt p z j) := by
  obtain ⟨block,cert,found,whole,evidence,same⟩ := ExtProposal.fromProto_eq_some.mp (good.decoded (E.gets j))
  refine ExtProposal.fromProto_eq_some.mpr ⟨block,cert,found,whole,evidence,?_⟩
  rw [forwardExt, same]

theorem Watching.checked_forward (signed : ∀ i data, p.verify i data (p.sign i data) = some true)
    (good : E.Good p z) (watching : E.Watching p z i node) (inside : j < z.size) :
    checkForward p (z.config i) node.state (E.forwardExt p z j) = some true := by
  have proposal : (E.ext (E.gets j)).proposal = E.prop (E.gets j) :=
    ExtProposal.fromProto_proposal (good.decoded _)
  have unsigned : checkProposal p (z.config i) node.state (E.forwardExt p z j) = some true := by
    have checked := watching.checked (E.gets j)
    rw [checkProposal, proposal] at checked
    exact checked
  have sender : (E.forwardExt p z j).proposal.forwardSender = j := rfl
  simp only [checkForward, unsigned, sender, Setting.key inside, Option.map_some, Option.some.injEq]
  exact decide_eq_true (signed _ _)

theorem keys_addForward (view : n.view = E.common.view) (j : Nat) :
    (row (n.addForward (E.forward p z j)).fpropMap E.common.view).keys =
      insert j (row n.fpropMap E.common.view).keys := by
  rw [← view, SyncHS.addForward, row_insert, if_pos rfl, SyncHS.forwardsWith, keys_insert]
  rfl

section Reading

variable {first : Option Nat} (seen : E.Seen p z n first) (view : n.view = E.common.view)

include seen view

theorem Seen.reference_eq (j : Nat) :
    n.reference (E.forward p z j) = E.forward p z (first.getD j) := by
  rw [SyncHS.reference, view, seen.reference]
  cases first <;> rfl

theorem Seen.remember (j : Nat) : E.Seen p z (n.remember (E.forward p z j)) (some (first.getD j)) := by
  constructor
  · rw [SyncHS.remember, seen.reference_eq view, lookup_insert, if_pos view.symm]
    rfl
  · intro k member
    obtain ⟨follower,m,mem,version⟩ := seen.senders k member
    cases mem
    exact ⟨follower,m,rfl,version⟩

theorem Seen.addForward (follower : E.Follower z j) (version : E.gets j = E.gets (first.getD j)) :
    E.Seen p z (n.addForward (E.forward p z j)) (some (first.getD j)) := by
  refine ⟨(seen.remember view j).reference,?_⟩
  intro k member
  rw [keys_addForward view] at member
  rcases Finset.mem_insert.mp member with rfl | old
  · exact ⟨follower,_,rfl,version⟩
  · exact (seen.remember view j).senders k old

end Reading

theorem Good.hash_eq (good : E.Good p z) {j k : Nat} :
    (E.forwardExt p z k).extBlock.getBlockHash p = (E.forwardExt p z j).extBlock.getBlockHash p ↔
      E.gets j = E.gets k := by
  have differ := good.differ
  simp only [forwardExt]
  cases E.gets j <;> cases E.gets k <;> simp [differ,Ne.symm differ]

variable (p z E) in
/-- What is left after the handler has read the forward of `j`. -/
structure Read (i j : Nat) (n n' : SyncHS) (jobs : List Job) : Prop where
  common : n'.common = n.common
  certMap : n'.certMap = n.certMap
  clock : n'.clock = n.clock
  seen : ∃ first, E.Seen p z n' first
  flag : n.equivocatingProposalInject = true → n'.equivocatingProposalInject = true
  keys : (row n.fpropMap E.common.view).keys ⊆ (row n'.fpropMap E.common.view).keys
  done : n'.equivocatingProposalInject = true ∨ j ∈ (row n'.fpropMap E.common.view).keys
  spawned : ∀ job ∈ jobs, ∃ a b, job = .sendEqProEvidence (E.forward p z a) (E.forward p z b)
  reported : i ≠ E.common.leader → n'.equivocatingProposalInject = true →
    n.equivocatingProposalInject = true ∨ ∃ x y, .sendEqProEvidence x y ∈ jobs

theorem Watching.reads (signed : ∀ i data, p.verify i data (p.sign i data) = some true) (good : E.Good p z)
    (watching : E.Watching p z i node) (inside : i < z.size) (follower : E.Follower z j) :
    ∃ n' jobs, forwardProposalHandler p (z.config i) node.state (E.forward p z j) = some (n',⟨jobs,[],[]⟩) ∧
      E.Read p z i j node.state n' jobs := by
  obtain ⟨first,seen⟩ := watching.seen
  by_cases flagged : node.state.equivocatingProposalInject = true
  · exact ⟨_,_,if_pos flagged,rfl,rfl,rfl,⟨first,seen⟩,id,subset_rfl,Or.inl flagged,by simp,
      fun _ _ => Or.inl flagged⟩
  · have accepted : Accepted p (z.config i) node.state (E.forward p z j) (E.forwardExt p z j) :=
      ⟨Bool.eq_false_iff.mpr flagged,decode good j,watching.checked_forward signed good follower.1⟩
    have reference := seen.reference_eq watching.view j
    have decoded : ExtProposal.fromProto p (node.state.reference (E.forward p z j)) =
        some (E.forwardExt p z (first.getD j)) := by rw [reference, decode good]
    by_cases version : E.gets j = E.gets (first.getD j)
    · have counted := seen.addForward watching.view follower version
      have short : size (node.state.forwardsWith (E.forward p z j)) < (z.config i).pMap.card := by
        have whole := counted.short good
        rw [SyncHS.addForward, ← watching.view, row_insert, if_pos rfl] at whole
        rw [Setting.config_card inside]
        exact whole
      have ran := forwardProposalHandler_accepts accepted ⟨_,decoded,good.hash_eq.mpr version⟩
      rw [acceptForward_eq (ExtProposal.fromProto_proposal accepted.decoded), if_pos short] at ran
      refine ⟨_,_,ran,rfl,rfl,rfl,⟨_,counted⟩,fun set => absurd set flagged,?_,Or.inr ?_,by simp,
        fun _ set => nomatch set⟩
      · rw [keys_addForward watching.view]
        exact Finset.subset_insert _ _
      · rw [keys_addForward watching.view]
        exact Finset.mem_insert_self _ _
    · have ran := forwardProposalHandler_conflicts accepted decoded fun same => version (good.hash_eq.mp same)
      have remembered := seen.remember watching.view j
      rw [reference] at ran
      by_cases leads : (z.config i).id ≠ node.state.leader
      · rw [if_pos leads] at ran
        exact ⟨_,_,ran,rfl,rfl,rfl,⟨_,remembered.reference,remembered.senders⟩,fun _ => rfl,subset_rfl,
          Or.inl rfl,fun job member => ⟨_,_,List.mem_singleton.mp member⟩,
          fun _ _ => Or.inr ⟨_,_,List.mem_cons_self⟩⟩
      · rw [if_neg leads] at ran
        refine ⟨_,_,ran,rfl,rfl,rfl,⟨_,remembered.reference,remembered.senders⟩,fun _ => rfl,subset_rfl,
          Or.inl rfl,by simp,fun other => ?_⟩
        rw [watching.leader] at leads
        exact absurd other leads

/-! ## Evidence -/

theorem Watching.valid (signed : ∀ i data, p.verify i data (p.sign i data) = some true) (good : E.Good p z)
    (watching : E.Watching p z i node) {e : EquivocationEvidence} (evidence : E.IsEvidence p z e) :
    isEqpEvidenceValid p (z.config i) node.state e = some true := by
  obtain ⟨o,inside,a,b,rfl⟩ := evidence
  have header (j : Nat) : signedBy p (z.config i) node.state.leader
      (marshalHeader (E.forward p z j).getHeader) (E.forward p z j).miningProof = some true := by
    have checked := signedBy_of_checked (watching.checked (E.gets j))
    rw [ExtProposal.fromProto_proposal (good.decoded (E.gets j))] at checked
    exact checked
  have envelope : isEnvelopeValid p (z.config i) node.state
      (signEvidence p (z.config o) ⟨E.common.leader,E.common.view⟩) ⟨E.common.leader,E.common.view⟩ =
        some true := by
    rw [isEnvelopeValid, if_neg (not_not.mpr watching.view.symm), signedBy]
    simp only [signEvidence, Setting.config_id, Setting.key inside, Option.map_some, Option.some.injEq]
    exact decide_eq_true (signed _ _)
  have target : ¬E.common.leader ≠ node.state.leader := not_not.mpr watching.leader.symm
  have data : (signEvidence p (z.config o) ⟨E.common.leader,E.common.view⟩).evidenceData =
    some ⟨E.common.leader,E.common.view⟩ := rfl
  simp only [isEqpEvidenceValid, Option.bind_eq_bind, Option.bind_some, data, if_neg target, envelope,
    Option.map_some, Option.getD_some, header, andThen]

/-- The first evidence appends the empty block and records the leader; later evidence
changes nothing. -/
theorem Watching.records (signed : ∀ i data, p.verify i data (p.sign i data) = some true) (good : E.Good p z)
    (watching : E.Watching p z i node) {e : EquivocationEvidence} (evidence : E.IsEvidence p z e) :
    ∃ n', equivocationEvidenceHandler p (z.config i) node.state e = some (n',.none) ∧
      n'.common = E.common.equivocated p ∧ n'.fpropMap = node.state.fpropMap ∧
      n'.proposalByviewMap = node.state.proposalByviewMap ∧ n'.clock = node.state.clock ∧
      n'.equivocatingProposalInject = node.state.equivocatingProposalInject := by
  rcases watching.common with same | same
  · have absent : ¬at2 node.state.equiproposalMap node.state.view node.state.leader = some 1 := by
      rw [show node.state.equiproposalMap = _ from congrArg Common.equiproposalMap same, watching.view, at2,
        good.unrecorded]
      simp
    obtain ⟨cert,found,certified⟩ := watching.headCert same
    have bc : node.state.bc = E.common.bc := congrArg Common.bc same
    have head : node.state.getCertForBlockIndex node.state.bc.head = some cert := by rw [bc]; exact found
    have ran : equivocationEvidenceHandler p (z.config i) node.state e =
        some ((node.state.appendEmptyBlock p cert).addEquiProposaltoMap,.none) := by
      simp only [equivocationEvidenceHandler, if_neg absent, watching.valid signed good evidence, head]
    rw [Common.appendEmptyBlock_eq bc certified] at ran
    refine ⟨_,ran,?_,rfl,rfl,rfl,rfl⟩
    rw [← same]
    rfl
  · have present : at2 node.state.equiproposalMap node.state.view node.state.leader = some 1 := by
      rw [show node.state.equiproposalMap = _ from congrArg Common.equiproposalMap same, watching.view,
        watching.leader, Common.equivocated, at2_recordLeader]
      split
      next already => exact already
      next => simp
    exact ⟨_,if_pos present,same,rfl,rfl,rfl,rfl⟩

/-! ## The step lemma of a node -/

theorem Moves.of_work {J : Job} {jobs : List Job} {sends : List Outgoing} (found : node.pending[index]? = some J)
    (flag : node.state.equivocatingProposalInject = true → n'.equivocatingProposalInject = true)
    (keys : (row node.state.fpropMap E.common.view).keys ⊆ (row n'.fpropMap E.common.view).keys)
    (read : ∀ j, J = .proposeChannel (E.forward p z j) →
      n'.equivocatingProposalInject = true ∨ j ∈ (row n'.fpropMap E.common.view).keys)
    (recorded : node.state.common = E.common.equivocated p → n'.common = E.common.equivocated p)
    (handled : ∀ e, J = .eqEvidenceChannel e → n'.common = E.common.equivocated p)
    (forward : J = .forward (E.prop (E.gets i)) →
      E.Forwarded p z i ⟨n',node.pending.eraseIdx index ++ jobs,node.acked⟩ sends)
    (flagged : i ≠ E.common.leader → n'.equivocatingProposalInject = true →
      node.state.equivocatingProposalInject = true ∨ ∃ x y, .sendEqProEvidence x y ∈ jobs)
    (reports : ∀ x y, J = .sendEqProEvidence x y →
      E.Reported p z ⟨n',node.pending.eraseIdx index ++ jobs,node.acked⟩ sends)
    (sent : ∀ o ∈ sends, E.Sends p z i o) :
    E.Moves p z i node ⟨n',node.pending.eraseIdx index ++ jobs,node.acked⟩ sends := by
  refine ⟨?_,?_,?_,?_,?_,sent⟩
  · rintro j (waiting | set | there)
    · by_cases same : J = .proposeChannel (E.forward p z j)
      · exact Or.inr (read j same)
      · exact Or.inl (mem_work found waiting (Ne.symm same) jobs)
    · exact Or.inr (Or.inl (flag set))
    · exact Or.inr (Or.inr (keys there))
  · rintro (⟨e,evidence,waiting⟩ | done)
    · by_cases same : J = .eqEvidenceChannel e
      · exact Or.inr (handled e same)
      · exact Or.inl ⟨e,evidence,mem_work found waiting (Ne.symm same) jobs⟩
    · exact Or.inr (recorded done)
  · intro waiting
    by_cases same : J = .forward (E.prop (E.gets i))
    · exact Or.inr (forward same)
    · exact Or.inl (mem_work found waiting (Ne.symm same) jobs)
  · intro follower set
    exact (flagged follower set).imp_right fun ⟨x,y,member⟩ => ⟨x,y,List.mem_append_right _ member⟩
  · rintro ⟨x,y,waiting⟩
    by_cases same : J = .sendEqProEvidence x y
    · exact Or.inr (reports x y same)
    · exact Or.inl ⟨x,y,mem_work found waiting (Ne.symm same) jobs⟩

theorem Moves.of_grow {node' : Node} (fixed : node'.state = node.state.setClock node'.state.clock)
    (grows : ∀ job ∈ node.pending, job ∈ node'.pending) : E.Moves p z i node node' [] := by
  have common : node'.state.common = node.state.common := by rw [fixed]; rfl
  have flag : node'.state.equivocatingProposalInject = node.state.equivocatingProposalInject := by
    rw [fixed]
    rfl
  have forwards : node'.state.fpropMap = node.state.fpropMap := by rw [fixed]; rfl
  refine ⟨?_,?_,fun waiting => Or.inl (grows _ waiting),fun _ set => Or.inl (flag.symm.trans set),?_,by simp⟩
  · rintro j (waiting | set | there)
    · exact Or.inl (grows _ waiting)
    · exact Or.inr (Or.inl (flag.trans set))
    · exact Or.inr (Or.inr (forwards ▸ there))
  · rintro (⟨e,evidence,waiting⟩ | done)
    · exact Or.inl ⟨e,evidence,grows _ waiting⟩
    · exact Or.inr (common.trans done)
  · exact fun ⟨x,y,waiting⟩ => Or.inl ⟨x,y,grows _ waiting⟩

theorem Watching.work {jobs : List Job} (watching : E.Watching p z i node)
    (common : n'.common = node.state.common) (certMap : n'.certMap = node.state.certMap)
    (clock : n'.clock = node.state.clock) (seen : ∃ first, E.Seen p z n' first)
    (allowed : ∀ job ∈ jobs, E.Allows p z i job) (noRound : .round ∉ jobs) :
    E.Watching p z i ⟨n',node.pending.eraseIdx index ++ jobs,node.acked⟩ := by
  refine ⟨?_,?_,?_,?_,seen,?_,?_,?_⟩
  · rw [common]
    exact watching.common
  · intro same
    rw [certMap]
    exact watching.headCert (common.symm.trans same)
  · intro version
    rw [checkProposal_common common]
    exact watching.checked version
  · exact (congrArg Clock.withholdingProposalInject clock).trans watching.unwithheld
  · exact clock ▸ watching.clocked.work index noRound
  · exact fun leader => (congrArg Clock.timers clock).trans (watching.led leader)
  · intro job member
    exact (of_mem_work member).elim (watching.jobs job) (allowed job)

theorem startRound_follower (mode : z.timerMode = .plain ∨ z.timerMode = .equivocation)
    (follower : i ≠ n.leader) : startRound p (z.config i) n = some (n,.none) := by
  have other : ¬n.leader = (z.config i).id := follower.symm
  rcases mode with plain | equivocation
  · simp only [startRound, Setting.config_timerMode, plain, if_neg other]
  · simp only [startRound, Setting.config_timerMode, equivocation, if_neg other]

theorem Watching.forward_eq (good : E.Good p z) (watching : E.Watching p z i node) :
    ReputationSMR.forward p (z.config i) node.state (E.prop (E.gets i)) =
      some (node.state,⟨[.proposeChannel (E.forward p z i)],[.broadcast (.prop (E.forward p z i))],[]⟩) := by
  simp only [ReputationSMR.forward, good.decoded, watching.checked]
  rfl

variable (p z E) in
def Works (i : Nat) (node : Node) (index : Nat) (order : List Nat) : Prop :=
  ∃ node' sends, node.step p (z.config i) (.work index order) = some (node',sends) ∧
    E.Watching p z i node' ∧ E.Moves p z i node node' sends

theorem Watching.forwards (good : E.Good p z) (watching : E.Watching p z i node) (inside : i < z.size)
    (follower : i ≠ E.common.leader) (found : node.pending[index]? = some (.forward (E.prop (E.gets i)))) :
    E.Works p z i node index order := by
  refine ⟨_,_,Node.step_work found (watching.forward_eq good),
    watching.work rfl rfl rfl watching.seen ?_ (by simp),?_⟩
  · intro job member
    obtain rfl := List.mem_singleton.mp member
    exact ⟨i,⟨inside,follower⟩,rfl⟩
  · refine .of_work found id subset_rfl nofun id nofun (fun _ => ?_) (fun _ => Or.inl) nofun ?_
    · exact ⟨List.mem_append_right _ List.mem_cons_self,List.mem_cons_self⟩
    · exact fun o member => Or.inl ⟨List.mem_singleton.mp member,follower⟩

theorem Watching.compares (signed : ∀ i data, p.verify i data (p.sign i data) = some true) (good : E.Good p z)
    (watching : E.Watching p z i node) (inside : i < z.size) {j : Nat} (follower : E.Follower z j)
    (found : node.pending[index]? = some (.proposeChannel (E.forward p z j))) : E.Works p z i node index order := by
  obtain ⟨n',jobs,ran,read⟩ := watching.reads signed good inside follower
  refine ⟨_,_,Node.step_work found ran,watching.work read.common read.certMap read.clock read.seen ?_ ?_,?_⟩
  · intro job member
    obtain ⟨a,b,rfl⟩ := read.spawned job member
    exact ⟨a,b,rfl,rfl⟩
  · intro member
    obtain ⟨a,b,same⟩ := read.spawned _ member
    cases same
  · refine .of_work found read.flag read.keys ?_ read.common.trans nofun nofun read.reported nofun (by simp)
    intro k same
    obtain rfl : j = k := congrArg Proposal.forwardSender (Job.proposeChannel.inj same)
    exact read.done

theorem Watching.reports (watching : E.Watching p z i node) (inside : i < z.size) {a b : Nat}
    (found : node.pending[index]? = some (.sendEqProEvidence (E.forward p z a) (E.forward p z b))) :
    E.Works p z i node index order := by
  have evidence : E.IsEvidence p z ⟨some (signEvidence p (z.config i) ⟨node.state.leader,node.state.view⟩),
      some (E.forward p z a),some (E.forward p z b)⟩ := by
    rw [watching.leader, watching.view]
    exact ⟨i,inside,a,b,rfl⟩
  refine ⟨_,_,Node.step_work found rfl,watching.work rfl rfl rfl watching.seen ?_ (by simp),?_⟩
  · intro job member
    obtain rfl := List.mem_singleton.mp member
    exact evidence
  · refine .of_work found id subset_rfl nofun id nofun nofun (fun _ => Or.inl) (fun _ _ _ => ?_) ?_
    · exact ⟨_,evidence,List.mem_append_right _ List.mem_cons_self,List.mem_cons_self⟩
    · exact fun o member => Or.inr ⟨_,evidence,List.mem_singleton.mp member⟩

theorem Watching.convicts (signed : ∀ i data, p.verify i data (p.sign i data) = some true) (good : E.Good p z)
    (watching : E.Watching p z i node) {e : EquivocationEvidence} (evidence : E.IsEvidence p z e)
    (found : node.pending[index]? = some (.eqEvidenceChannel e)) : E.Works p z i node index order := by
  obtain ⟨n',ran,common,fpropMap,reference,clock,flag⟩ := watching.records signed good evidence
  refine ⟨_,_,Node.step_work found ran,⟨Or.inr common,?_,?_,?_,?_,?_,?_,?_⟩,?_⟩
  · intro same
    -- the empty block has raised the head
    have head := congrArg (fun C : Common => C.bc.head) (common.symm.trans same)
    exact absurd head (Nat.succ_ne_self _)
  · intro version
    rcases watching.common with before | before
    · exact checkProposal_equivocated before common (watching.checked version)
    · rw [checkProposal_common (common.trans before.symm)]
      exact watching.checked version
  · exact (congrArg Clock.withholdingProposalInject clock).trans watching.unwithheld
  · obtain ⟨first,seen⟩ := watching.seen
    exact ⟨first,reference ▸ seen.reference,fpropMap ▸ seen.senders⟩
  · exact clock ▸ watching.clocked.work index (by simp)
  · exact fun leader => (congrArg Clock.timers clock).trans (watching.led leader)
  · intro job member
    exact (of_mem_work member).elim (watching.jobs job) (by simp)
  · exact .of_work found flag.trans (by rw [fpropMap]) nofun (fun _ => common) (fun _ _ => common) nofun
      (fun _ set => Or.inl (flag.symm.trans set)) nofun (by simp)

theorem Watching.works (signed : ∀ i data, p.verify i data (p.sign i data) = some true) (good : E.Good p z)
    (mode : z.timerMode = .plain ∨ z.timerMode = .equivocation) (watching : E.Watching p z i node)
    (inside : i < z.size) {J : Job} (found : node.pending[index]? = some J) : E.Works p z i node index order := by
  have allowed := watching.jobs J (List.mem_of_getElem? found)
  cases J with
  | round =>
    have follower : i ≠ node.state.leader := by rw [watching.leader]; exact allowed
    have ran := startRound_follower (p := p) mode follower
    refine ⟨_,_,Node.step_work found ran,watching.work rfl rfl rfl watching.seen (by simp) (by simp),?_⟩
    exact .of_work found id subset_rfl nofun id nofun nofun (fun _ => Or.inl) nofun (by simp)
  | forward x =>
    obtain ⟨follower,rfl⟩ := allowed
    exact watching.forwards good inside follower found
  | proposeChannel x =>
    obtain ⟨j,follower,rfl⟩ := allowed
    exact watching.compares signed good inside follower found
  | sendEqProEvidence x y =>
    obtain ⟨a,b,rfl,rfl⟩ := allowed
    exact watching.reports inside found
  | eqEvidenceChannel e => exact watching.convicts signed good allowed found
  | _ => exact allowed.elim

theorem Watching.command (watching : E.Watching p z i node) (cmd : Bytes) :
    ∃ node', node.step p (z.config i) (.command cmd) = some (node',[]) ∧ E.Watching p z i node' ∧
      E.Moves p z i node node' [] := by
  obtain ⟨c,jobs,ran,ticked⟩ := command_ticks i watching.clocked cmd
  obtain ⟨first,seen⟩ := watching.seen
  refine ⟨_,Node.step_command ran,⟨watching.common,watching.headCert,?_,ticked.flag.trans watching.unwithheld,
    ⟨first,seen.reference,seen.senders⟩,ticked.clocked,?_,?_⟩,?_⟩
  · exact fun version => (checkProposal_common rfl).trans (watching.checked version)
  · intro leader
    have running : node.state.clock.timers = 1 := watching.led leader
    rcases ticked.started with ⟨_,same⟩ | ⟨_,idle,_⟩
    · exact same.trans running
    · exact absurd (idle.symm.trans running) (by decide)
  · intro job member
    rcases List.mem_append.mp member with old | new
    · exact watching.jobs job old
    · rcases ticked.started with ⟨rfl,_⟩ | ⟨rfl,idle,_⟩
      · simp at new
      · obtain rfl := List.mem_singleton.mp new
        intro leader
        exact absurd (idle.symm.trans (watching.led leader)) (by decide)
  · exact .of_grow rfl fun job member => List.mem_append_left jobs member

theorem Watching.receive {jobs : List Job} (watching : E.Watching p z i node)
    (allowed : ∀ job ∈ jobs, E.Allows p z i job) (noRound : .round ∉ jobs) :
    E.Watching p z i ⟨node.state,node.pending ++ jobs,node.acked⟩ := by
  refine { watching with clocked := ⟨watching.clocked.tokens,?_,?_⟩, jobs := ?_ }
  · rw [List.count_append, List.count_eq_zero_of_not_mem noRound, Nat.add_zero]
    exact watching.clocked.rounds
  · intro member
    exact watching.clocked.enough ((List.mem_append.mp member).resolve_right noRound)
  · intro job member
    exact (List.mem_append.mp member).elim (watching.jobs job) (allowed job)

/-! ## The end of the view -/

variable (p z E) in
/-- A node that has detected and recorded the equivocation and waits for its timer. -/
structure Done (node : Node) : Prop where
  common : node.state.common = E.common.equivocated p
  flagged : node.state.equivocatingProposalInject = true
  unwithheld : node.state.withholdingProposalInject = false
  clocked : Clocked z node.state.clock node.pending
  running : node.state.timers = 1
  pending : node.pending = []

theorem Done.command (done : E.Done p z node) (cmd : Bytes) :
    ∃ node', node.step p (z.config i) (.command cmd) = some (node',[]) ∧ E.Done p z node' := by
  obtain ⟨c,jobs,ran,ticked⟩ := command_ticks i done.clocked cmd
  rcases ticked.started with ⟨rfl,same⟩ | ⟨_,idle,_⟩
  · refine ⟨_,Node.step_command ran,done.common,done.flagged,ticked.flag.trans done.unwithheld,ticked.clocked,
      same.trans done.running,?_⟩
    rw [done.pending, List.append_nil]
  · exact absurd (idle.symm.trans done.running) (by decide)

theorem Done.callback (done : E.Done p z node) (inside : i < z.size) :
    ∃ node', node.step p (z.config i) .callback = some (node',[]) ∧
      node'.state.common = (E.common.equivocated p).advance p z.size ∧
      node'.state.equivocatingProposalInject = false := by
  have bc : node.state.bc = E.common.bc.extend p (E.common.emptyBlock p) := congrArg Common.bc done.common
  have block : (node.state.bc.blocksByHeight.lookup node.state.bc.head).isSome := by
    rw [bc, extend_top Common.emptyBlock_height]
    rfl
  have total : (ReputationSMR.callback p (z.config i)
      { node.state with timers := node.state.timers - 1 }).isSome := callback_total block
  obtain ⟨⟨n',effect⟩,ran⟩ := Option.isSome_iff_exists.mp total
  cases callback_cases ran with
  | kept counters stays => exact absurd (Or.inr (Or.inl done.flagged)) stays
  | advanced b counters moves found =>
    refine ⟨_,Node.step_callback ran,?_,?_⟩
    · exact (nextView_common inside _ counters).trans (congrArg (Common.advance p z.size) done.common)
    · simp [SyncHS.nextView,done.unwithheld]

end Equivocation

end ReputationSMR
