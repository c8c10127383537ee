import ReputationSMR.ForwardHandler
import ReputationSMR.VoteHandler
import ReputationSMR.Node

/-! Everything that the code behind a pending job, a client command or a timer can do, one
case per outcome. What holds of all jobs is derived from these cases. -/
namespace ReputationSMR

open Wire FiniteMap

def candidateBlock (p : Platform) (cmds : List Bytes) (cert : BlockCertificate) (newHeight : Nat)
    (extra : Bytes) : ExtBlock :=
  ExtBlock.fromProto p ⟨some (newHeader p cert newHeight extra),some ⟨cmds,cmds⟩,
    (p.doHash (newHeader p cert newHeight extra).marshal).bytes⟩

def SyncHS.newestCommands (cfg : NodeConfig) (n : SyncHS) : List Bytes :=
  n.pendingCommands.drop (n.pendingCommands.length - cfg.blockSize)

def SyncHS.candidate (p : Platform) (cfg : NodeConfig) (n : SyncHS) (cert : BlockCertificate) : Proposal :=
  newCandidateProposal p cfg n (n.newestCommands cfg) cert (n.bc.head + 1) []

def SyncHS.proposing (p : Platform) (cfg : NodeConfig) (n : SyncHS) (cert : BlockCertificate) : SyncHS :=
  (({ n with pendingCommands := n.pendingCommands.take (n.pendingCommands.length - cfg.blockSize) }).appendBlock p
    (candidateBlock p (n.newestCommands cfg) cert (n.bc.head + 1) [])).addProposaltoViewMap (n.candidate p cfg cert)

/-! ## Rounds -/

inductive RoundCase (p : Platform) (cfg : NodeConfig) (n : SyncHS) : SyncHS → Effect → Prop where
  | idle (withheld inject : Bool) :
      (withheld = n.withholdingProposalInject ∨ cfg.timerMode = .withhold) →
      (inject = n.maliciousVoteInject ∨ cfg.timerMode = .maliciousVote) → RoundCase p cfg n
      { n with withholdingProposalInject := withheld, maliciousVoteInject := inject } .none
  | withholds : cfg.timerMode = .withhold → n.leader % 2 ≠ 0 → RoundCase p cfg n
      (handleWithholdingProposal p { n with withholdingProposalInject := true }) .none
  | proposes (withheld : Bool) (cert : BlockCertificate) :
      (withheld = n.withholdingProposalInject ∨ cfg.timerMode = .withhold) → n.leader = cfg.id →
      ¬(cfg.timerMode = .withhold ∧ n.leader % 2 ≠ 0) → ¬(cfg.timerMode = .equivocation ∧ cfg.id % 2 ≠ 0) →
      n.certMap.lookup n.bc.head = some cert → cfg.blockSize ≤ n.pendingCommands.length →
      RoundCase p cfg n ({ n with withholdingProposalInject := withheld }.proposing p cfg cert)
        ⟨[.proposed (n.candidate p cfg cert)],[],[]⟩
  | equivocates (commands cmds : List Bytes) (cert : BlockCertificate) : cfg.timerMode = .equivocation →
      RoundCase p cfg n { n with pendingCommands := commands }
        ⟨[],[.equivocating (.prop (newCandidateProposal p cfg n cmds cert (n.bc.head + 1) [49]))
          (.prop (newCandidateProposal p cfg n cmds cert (n.bc.head + 1) [50]))],[]⟩
  | intrudes (commands cmds : List Bytes) (cert : BlockCertificate) : cfg.timerMode = .maliciousProposal →
      RoundCase p cfg n { n with pendingCommands := commands }
        ⟨[.maliPropseChannel (newCandidateProposal p cfg n cmds cert (n.bc.head + 1) [])],
          [.broadcast (.prop (newCandidateProposal p cfg n cmds cert (n.bc.head + 1) []))],[]⟩

section Rounds

variable {p : Platform} {cfg : NodeConfig} {n n' : SyncHS} {effect : Effect}

theorem RoundCase.unchanged : RoundCase p cfg n n .none :=
  .idle n.withholdingProposalInject n.maliciousVoteInject (Or.inl rfl) (Or.inl rfl)

theorem propose_cases {withheld : Bool}
    (ran : propose p cfg { n with withholdingProposalInject := withheld } = some (n',effect))
    (flag : withheld = n.withholdingProposalInject ∨ cfg.timerMode = .withhold) (leader : n.leader = cfg.id)
    (noWithholding : ¬(cfg.timerMode = .withhold ∧ n.leader % 2 ≠ 0))
    (noEquivocation : ¬(cfg.timerMode = .equivocation ∧ cfg.id % 2 ≠ 0)) : RoundCase p cfg n n' effect := by
  simp only [propose, SyncHS.getCertForBlockIndex, SyncHS.getCmdsIfSufficient] at ran
  split at ran
  next =>
    obtain ⟨rfl,rfl⟩ := Prod.mk.inj (Option.some.inj ran)
    exact .idle withheld n.maliciousVoteInject flag (Or.inl rfl)
  next cert found =>
    split at ran
    next =>
      obtain ⟨rfl,rfl⟩ := Prod.mk.inj (Option.some.inj ran)
      exact .idle withheld n.maliciousVoteInject flag (Or.inl rfl)
    next cmds rest taken =>
      split at taken
      next => contradiction
      next enough =>
        obtain ⟨rfl,rfl⟩ := Prod.mk.inj (Option.some.inj taken)
        obtain ⟨rfl,rfl⟩ := Prod.mk.inj (Option.some.inj ran)
        exact .proposes withheld cert flag leader noWithholding noEquivocation found (Nat.le_of_not_lt enough)

theorem equivocationpropose_cases (mode : cfg.timerMode = .equivocation)
    (ran : equivocationpropose p cfg n = some (n',effect)) : RoundCase p cfg n n' effect := by
  simp only [equivocationpropose, SyncHS.getCmdsIfSufficient] at ran
  split at ran
  next =>
    obtain ⟨rfl,rfl⟩ := Prod.mk.inj (Option.some.inj ran)
    exact .unchanged
  next =>
    split at ran
    next =>
      obtain ⟨rfl,rfl⟩ := Prod.mk.inj (Option.some.inj ran)
      exact .unchanged
    next cmds rest taken =>
      split at taken
      next => contradiction
      next =>
        obtain ⟨rfl,rfl⟩ := Prod.mk.inj (Option.some.inj taken)
        obtain ⟨rfl,rfl⟩ := Prod.mk.inj (Option.some.inj ran)
        exact .equivocates _ _ _ mode

theorem maliciousproposalpropose_cases (mode : cfg.timerMode = .maliciousProposal)
    (ran : maliciousproposalpropose p cfg n = some (n',effect)) : RoundCase p cfg n n' effect := by
  simp only [maliciousproposalpropose, SyncHS.getCmdsIfSufficient] at ran
  split at ran
  next =>
    obtain ⟨rfl,rfl⟩ := Prod.mk.inj (Option.some.inj ran)
    exact .unchanged
  next =>
    split at ran
    next =>
      obtain ⟨rfl,rfl⟩ := Prod.mk.inj (Option.some.inj ran)
      exact .unchanged
    next cmds rest taken =>
      split at taken
      next => contradiction
      next =>
        obtain ⟨rfl,rfl⟩ := Prod.mk.inj (Option.some.inj taken)
        obtain ⟨rfl,rfl⟩ := Prod.mk.inj (Option.some.inj ran)
        exact .intrudes _ _ _ mode

theorem startRound_cases (ran : startRound p cfg n = some (n',effect)) : RoundCase p cfg n n' effect := by
  have idle (withheld inject : Bool) (ran : some ({ n with
      withholdingProposalInject := withheld, maliciousVoteInject := inject },Effect.none) = some (n',effect))
      (flag : withheld = n.withholdingProposalInject ∨ cfg.timerMode = .withhold)
      (flag' : inject = n.maliciousVoteInject ∨ cfg.timerMode = .maliciousVote) :
      RoundCase p cfg n n' effect := by
    obtain ⟨rfl,rfl⟩ := Prod.mk.inj (Option.some.inj ran)
    exact .idle withheld inject flag flag'
  simp only [startRound] at ran
  cases mode : cfg.timerMode with
  | plain =>
    simp only [mode] at ran
    split at ran
    next leader => exact propose_cases ran (Or.inl rfl) leader (by simp [mode]) (by simp [mode])
    next => exact idle _ _ ran (Or.inl rfl) (Or.inl rfl)
  | withhold =>
    simp only [mode] at ran
    split at ran
    next odd =>
      obtain ⟨rfl,rfl⟩ := Prod.mk.inj (Option.some.inj ran)
      exact .withholds mode odd
    next even =>
      split at ran
      next leader => exact propose_cases ran (Or.inr mode) leader (fun both => even both.2) (by simp [mode])
      next => exact idle _ _ ran (Or.inr mode) (Or.inl rfl)
  | equivocation =>
    simp only [mode] at ran
    split at ran
    next leader =>
      split at ran
      next => exact equivocationpropose_cases mode ran
      next even => exact propose_cases ran (Or.inl rfl) leader (by simp [mode]) fun both => even both.2
    next => exact idle _ _ ran (Or.inl rfl) (Or.inl rfl)
  | maliciousProposal =>
    simp only [mode] at ran
    split at ran
    next leader => exact propose_cases ran (Or.inl rfl) leader (by simp [mode]) (by simp [mode])
    next =>
      split at ran
      next => exact maliciousproposalpropose_cases mode ran
      next => exact idle _ _ ran (Or.inl rfl) (Or.inl rfl)
  | maliciousVote =>
    simp only [mode] at ran
    split at ran
    next leader => exact propose_cases ran (Or.inl rfl) leader (by simp [mode]) (by simp [mode])
    next =>
      split at ran
      next => exact idle _ _ ran (Or.inl rfl) (Or.inr mode)
      next => exact idle _ _ ran (Or.inl rfl) (Or.inl rfl)

/-- A round touches two injections, the pool of commands, the chain with its certificates, the
record of withheld proposals and the proposal of the view only. -/
theorem RoundCase.unread {β : Type} (f : SyncHS → β) (step : RoundCase p cfg n n' effect)
    (unread : ∀ withheld inject commands chain certs withholders firsts, f { n with
      withholdingProposalInject := withheld, maliciousVoteInject := inject, pendingCommands := commands,
      bc := chain, certMap := certs, withproposalMap := withholders, proposalByviewMap := firsts } = f n) :
    f n' = f n := by
  cases step with
  | idle withheld inject _ _ =>
    exact unread withheld inject n.pendingCommands n.bc n.certMap n.withproposalMap n.proposalByviewMap
  | withholds _ _ =>
    rw [handleWithholdingProposal]
    split
    next => exact unread true n.maliciousVoteInject n.pendingCommands n.bc n.certMap _ n.proposalByviewMap
    next => exact unread true n.maliciousVoteInject n.pendingCommands _ _ _ n.proposalByviewMap
  | proposes withheld _ _ _ _ _ _ _ =>
    exact unread withheld n.maliciousVoteInject _ _ n.certMap n.withproposalMap _
  | equivocates commands _ _ _ | intrudes commands _ _ _ =>
    exact unread n.withholdingProposalInject n.maliciousVoteInject commands n.bc n.certMap n.withproposalMap
      n.proposalByviewMap

end Rounds

/-! ## Jobs -/

/-- Evidence of a malicious proposal or vote, as a node sends it. -/
def maliProEvidenceOf (p : Platform) (cfg : NodeConfig) (n : SyncHS) (prop : Proposal) : MalicousProposalEvidence :=
  ⟨some (signEvidence p cfg ⟨prop.miner,n.view⟩),some prop⟩

def malivoteEvidenceOf (p : Platform) (cfg : NodeConfig) (n : SyncHS) (v : ProtoVote) : MalicousVoteEvidence :=
  ⟨some (signEvidence p cfg ⟨v.getVoter,n.view⟩),some v⟩

def eqEvidenceOf (p : Platform) (cfg : NodeConfig) (n : SyncHS) (prop1 prop2 : Proposal) : EquivocationEvidence :=
  ⟨some (signEvidence p cfg ⟨n.leader,n.view⟩),some prop1,some prop2⟩

inductive JobCase (p : Platform) (cfg : NodeConfig) (n : SyncHS) (order : List Nat) :
    Job → SyncHS → Effect → Prop where
  | forwardRefused (prop : Proposal) : JobCase p cfg n order (.forward prop) n .none
  | forwarded (prop : Proposal) (ep : ExtProposal) : ExtProposal.fromProto p prop = some ep →
      checkProposal p cfg n ep = some true → JobCase p cfg n order (.forward prop) n
        ⟨[.proposeChannel (signForward p cfg prop)],[.broadcast (.prop (signForward p cfg prop))],[]⟩
  | read (fprop : Proposal) (n' : SyncHS) (effect : Effect) : ForwardStep p cfg n fprop n' effect →
      JobCase p cfg n order (.proposeChannel fprop) n' effect
  | intruderSeen (prop : Proposal) (inject : Bool) : JobCase p cfg n order (.maliPropseChannel prop)
      { n with maliciousProposalInject := inject } .none
  | intruderReported (prop : Proposal) (inject : Bool) : JobCase p cfg n order (.maliPropseChannel prop)
      { n with maliciousProposalInject := inject }
      ⟨[.maliProEvidenceChannel (maliProEvidenceOf p cfg n prop)],
        [.broadcast (.mpevidence (maliProEvidenceOf p cfg n prop))],[]⟩
  | voteHandled (v : ProtoVote) (n' : SyncHS) (effect : Effect) : VoteStep p cfg n v order n' effect →
      JobCase p cfg n order (.voteChannel v) n' effect
  | eqEvidenceIgnored (e : EquivocationEvidence) : JobCase p cfg n order (.eqEvidenceChannel e) n .none
  | emptied (e : EquivocationEvidence) (cert : BlockCertificate) :
      at2 n.equiproposalMap n.view n.leader ≠ some 1 → isEqpEvidenceValid p cfg n e = some true →
      n.certMap.lookup n.bc.head = some cert → JobCase p cfg n order (.eqEvidenceChannel e)
        (n.appendEmptyBlock p cert).addEquiProposaltoMap .none
  | maliProIgnored (e : MalicousProposalEvidence) (seen : Bool) : JobCase p cfg n order
      (.maliProEvidenceChannel e) { n with maliProspoalExists := seen } .none
  | maliProRecorded (e : MalicousProposalEvidence) (prop : Proposal) (seen : Bool) :
      isMalipEvidenceValid p cfg n e = some true → e.e = some prop → JobCase p cfg n order
      (.maliProEvidenceChannel e) { n.addMaliProposaltoMap prop with maliProspoalExists := seen } .none
  | maliVoteIgnored (e : MalicousVoteEvidence) (seen : Bool) : JobCase p cfg n order
      (.maliVoteEvidenceChannel e) { n with maliVoteExists := seen } .none
  | maliVoteRecorded (e : MalicousVoteEvidence) (vote : ProtoVote) (body : ProtoVoteBody) (seen : Bool) :
      isMalivEvidenceValid p cfg n e = some true → e.e = some vote → vote.body = some body →
      JobCase p cfg n order (.maliVoteEvidenceChannel e)
      { n with voteMaliMap := put2 n.voteMaliMap n.view body.voter 1, maliVoteExists := seen } .none
  | started (n' : SyncHS) (effect : Effect) : RoundCase p cfg n n' effect → JobCase p cfg n order .round n' effect
  | announced (prop : Proposal) : JobCase p cfg n order (.proposed prop) n.addProposaltoMap
      ⟨[],[.broadcast (.prop prop)],[]⟩
  | voted (ep : ExtProposal) : ¬(cfg.id % 2 ≠ 0 ∧ n.maliciousVoteInject = true) →
      JobCase p cfg n order (.vote ep) (n.voted cfg)
        ⟨[.voteChannel (signVote p cfg (voteDataFor p n ep))],
          [.broadcast (.vote (signVote p cfg (voteDataFor p n ep)))],[]⟩
  | misvoted (ep : ExtProposal) : cfg.id % 2 ≠ 0 → n.maliciousVoteInject = true →
      JobCase p cfg n order (.vote ep) { n.voted cfg with maliciousVoteInject := false }
        ⟨[.voteChannel (signVote p cfg ⟨invalidBlockHash,n.view,cfg.id⟩)],
          [.broadcast (.vote (signVote p cfg ⟨invalidBlockHash,n.view,cfg.id⟩))],[]⟩
  | stored (bc : BlockCertificate) (height : Nat) : JobCase p cfg n order (.addCert bc height)
      (n.addCert bc height) .none
  | eqEvidenceSent (prop1 prop2 : Proposal) : JobCase p cfg n order (.sendEqProEvidence prop1 prop2) n
      ⟨[.eqEvidenceChannel (eqEvidenceOf p cfg n prop1 prop2)],
        [.broadcast (.eqevidence (eqEvidenceOf p cfg n prop1 prop2))],[]⟩
  | malivoteEvidenceSent (v : ProtoVote) : JobCase p cfg n order (.sendMalivoteEvidence v) n
      ⟨[.maliVoteEvidenceChannel (malivoteEvidenceOf p cfg n v)],
        [.broadcast (.mvevidence (malivoteEvidenceOf p cfg n v))],[]⟩

section Jobs

variable {p : Platform} {cfg : NodeConfig} {n n' : SyncHS} {effect : Effect} {order : List Nat}

theorem forward_cases {prop : Proposal} (ran : forward p cfg n prop = some (n',effect)) :
    JobCase p cfg n order (.forward prop) n' effect := by
  simp only [forward] at ran
  split at ran
  next => contradiction
  next ep decoded =>
    split at ran
    next => contradiction
    next =>
      obtain ⟨rfl,rfl⟩ := Prod.mk.inj (Option.some.inj ran)
      exact .forwardRefused prop
    next checked =>
      obtain ⟨rfl,rfl⟩ := Prod.mk.inj (Option.some.inj ran)
      exact .forwarded prop ep decoded checked

theorem maliciousPropsoalHandler_cases {prop : Proposal}
    (ran : maliciousPropsoalHandler p cfg n prop = some (n',effect)) :
    JobCase p cfg n order (.maliPropseChannel prop) n' effect := by
  simp only [maliciousPropsoalHandler, sendMaliProEvidence] at ran
  split at ran
  next => contradiction
  next =>
    obtain ⟨rfl,rfl⟩ := Prod.mk.inj (Option.some.inj ran)
    exact .intruderSeen prop n.maliciousProposalInject
  next =>
    split at ran
    next =>
      obtain ⟨rfl,rfl⟩ := Prod.mk.inj (Option.some.inj ran)
      exact .intruderReported prop _
    next =>
      obtain ⟨rfl,rfl⟩ := Prod.mk.inj (Option.some.inj ran)
      exact .intruderSeen prop _

theorem equivocationEvidenceHandler_cases {e : EquivocationEvidence}
    (ran : equivocationEvidenceHandler p cfg n e = some (n',effect)) :
    JobCase p cfg n order (.eqEvidenceChannel e) n' effect := by
  simp only [equivocationEvidenceHandler, SyncHS.getCertForBlockIndex] at ran
  split at ran
  next =>
    obtain ⟨rfl,rfl⟩ := Prod.mk.inj (Option.some.inj ran)
    exact .eqEvidenceIgnored e
  next unrecorded =>
    split at ran
    next => contradiction
    next =>
      obtain ⟨rfl,rfl⟩ := Prod.mk.inj (Option.some.inj ran)
      exact .eqEvidenceIgnored e
    next valid =>
      split at ran
      next =>
        obtain ⟨rfl,rfl⟩ := Prod.mk.inj (Option.some.inj ran)
        exact .eqEvidenceIgnored e
      next cert found =>
        obtain ⟨rfl,rfl⟩ := Prod.mk.inj (Option.some.inj ran)
        exact .emptied e cert unrecorded valid found

theorem maliciousProposalEvidenceHandler_cases {e : MalicousProposalEvidence}
    (ran : maliciousProposalEvidenceHandler p cfg n e = some (n',effect)) :
    JobCase p cfg n order (.maliProEvidenceChannel e) n' effect := by
  simp only [maliciousProposalEvidenceHandler] at ran
  split at ran
  next => contradiction
  next =>
    obtain ⟨rfl,rfl⟩ := Prod.mk.inj (Option.some.inj ran)
    exact .maliProIgnored e n.maliProspoalExists
  next valid =>
    simp only [Option.bind_eq_bind, Option.bind_eq_some_iff] at ran
    obtain ⟨prop,inside,data,_,ran⟩ := ran
    split at ran
    next =>
      obtain ⟨rfl,rfl⟩ := Prod.mk.inj (Option.some.inj ran)
      exact .maliProRecorded e prop n.maliProspoalExists valid inside
    next =>
      split at ran
      next =>
        obtain ⟨rfl,rfl⟩ := Prod.mk.inj (Option.some.inj ran)
        exact .maliProIgnored e false
      next =>
        obtain ⟨rfl,rfl⟩ := Prod.mk.inj (Option.some.inj ran)
        exact .maliProRecorded e prop false valid inside

theorem maliciousVoteEvidenceHandler_cases {e : MalicousVoteEvidence}
    (ran : maliciousVoteEvidenceHandler p cfg n e = some (n',effect)) :
    JobCase p cfg n order (.maliVoteEvidenceChannel e) n' effect := by
  simp only [maliciousVoteEvidenceHandler, SyncHS.addMaliVotetoMap] at ran
  split at ran
  next => contradiction
  next =>
    obtain ⟨rfl,rfl⟩ := Prod.mk.inj (Option.some.inj ran)
    exact .maliVoteIgnored e n.maliVoteExists
  next valid =>
    simp only [Option.bind_eq_bind, Option.bind_eq_some_iff, Option.map_eq_some_iff] at ran
    obtain ⟨vote,inside,data,_,recorded,⟨body,shape,rfl⟩,ran⟩ := ran
    split at ran
    next =>
      obtain ⟨rfl,rfl⟩ := Prod.mk.inj (Option.some.inj ran)
      exact .maliVoteRecorded e vote body n.maliVoteExists valid inside shape
    next =>
      split at ran
      next =>
        obtain ⟨rfl,rfl⟩ := Prod.mk.inj (Option.some.inj ran)
        exact .maliVoteIgnored e false
      next =>
        obtain ⟨rfl,rfl⟩ := Prod.mk.inj (Option.some.inj ran)
        exact .maliVoteRecorded e vote body false valid inside shape

theorem voteAfterForwards_cases {ep : ExtProposal} (ran : voteAfterForwards p cfg n ep = some (n',effect)) :
    JobCase p cfg n order (.vote ep) n' effect := by
  simp only [voteAfterForwards, voteForNonLeaderBlk, voteForBlock_eq, castVote_eq, Option.map_some] at ran
  split at ran
  next injected =>
    obtain ⟨rfl,rfl⟩ := Prod.mk.inj (Option.some.inj ran)
    exact .misvoted ep injected.1 injected.2
  next plain =>
    obtain ⟨rfl,rfl⟩ := Prod.mk.inj (Option.some.inj ran)
    exact .voted ep plain

theorem runJob_cases {job : Job} (ran : runJob p cfg n order job = some (n',effect)) :
    JobCase p cfg n order job n' effect := by
  cases job with
  | forward prop => exact forward_cases ran
  | proposeChannel prop => exact .read prop n' effect (forwardProposalHandler_cases ran)
  | maliPropseChannel prop => exact maliciousPropsoalHandler_cases ran
  | voteChannel v => exact .voteHandled v n' effect (voteHandler_cases ran)
  | eqEvidenceChannel e => exact equivocationEvidenceHandler_cases ran
  | maliProEvidenceChannel e => exact maliciousProposalEvidenceHandler_cases ran
  | maliVoteEvidenceChannel e => exact maliciousVoteEvidenceHandler_cases ran
  | round => exact .started n' effect (startRound_cases ran)
  | vote ep => exact voteAfterForwards_cases ran
  | addCert bc height =>
    obtain ⟨rfl,rfl⟩ := Prod.mk.inj (Option.some.inj ran)
    exact .stored bc height
  | proposed prop =>
    obtain ⟨rfl,rfl⟩ := Prod.mk.inj (Option.some.inj ran)
    exact .announced prop
  | sendEqProEvidence prop1 prop2 =>
    obtain ⟨rfl,rfl⟩ := Prod.mk.inj (Option.some.inj ran)
    exact .eqEvidenceSent prop1 prop2
  | sendMalivoteEvidence v =>
    obtain ⟨rfl,rfl⟩ := Prod.mk.inj (Option.some.inj ran)
    exact .malivoteEvidenceSent v

theorem JobCase.commands {order : List Nat} {job : Job} (step : JobCase p cfg n order job n' effect)
    (other : job ≠ .round) : n'.pendingCommands = n.pendingCommands := by
  cases step with
  | read _ _ _ step => exact step.unread SyncHS.pendingCommands fun _ _ _ _ _ _ => rfl
  | voteHandled _ _ _ step => exact step.unread SyncHS.pendingCommands fun _ _ _ => rfl
  | started _ _ _ => contradiction
  | _ => rfl

end Jobs

/-! ## Commands -/

/-- A command only moves the clock of rounds and the pool of commands. -/
inductive CommandCase (n : SyncHS) : SyncHS → Effect → Prop where
  | pooled (commands : List Bytes) (finish : Bool) (tokens timers : Nat) (jobs : List Job) :
      (∀ job ∈ jobs, job = .round) → CommandCase n
        { n with
          pendingCommands := commands
          gcallFuncFinish := finish
          syncChannel := tokens
          timers := timers } ⟨jobs,[],[]⟩

theorem command_cases {cfg : NodeConfig} {n n' : SyncHS} {cmd : Bytes} {effect : Effect}
    (ran : addCmdsAndStartTimerIfSufficientCommands cfg n cmd = some (n',effect)) :
    CommandCase n n' effect := by
  simp only [addCmdsAndStartTimerIfSufficientCommands, startTimer] at ran
  split at ran
  next =>
    obtain ⟨rfl,rfl⟩ := Prod.mk.inj (Option.some.inj ran)
    exact .pooled _ n.gcallFuncFinish n.syncChannel n.timers [] (by simp)
  next =>
    cases first : n.gcallFuncFinish <;> by_cases token : n.syncChannel = 1
    all_goals
      simp only [first, token, if_true, if_false, Bool.false_eq_true, List.nil_append, List.append_nil,
        List.cons_append] at ran
      obtain ⟨rfl,rfl⟩ := Prod.mk.inj (Option.some.inj ran)
    · exact .pooled _ false 0 (n.timers + 1) [.round] (by simp)
    · rw [← first]
      exact .pooled _ n.gcallFuncFinish n.syncChannel n.timers [] (by simp)
    · exact .pooled _ false 0 (n.timers + 1 + 1) [.round,.round] (by simp)
    · exact .pooled _ false n.syncChannel (n.timers + 1) [.round] (by simp)

theorem command_commands {cfg : NodeConfig} {n n' : SyncHS} {cmd : Bytes} {effect : Effect}
    (ran : addCmdsAndStartTimerIfSufficientCommands cfg n cmd = some (n',effect)) :
    n'.pendingCommands = n.pendingCommands ++ [cmd] := by
  simp only [addCmdsAndStartTimerIfSufficientCommands, startTimer] at ran
  split at ran
  next =>
    obtain ⟨rfl,rfl⟩ := Prod.mk.inj (Option.some.inj ran)
    rfl
  next =>
    obtain ⟨rfl,rfl⟩ := Prod.mk.inj (Option.some.inj ran)
    split <;> split <;> rfl

/-! ## The callback -/

/-- The three reasons for which the callback acknowledges the head. -/
def SyncHS.advances (n : SyncHS) : Prop :=
  n.withholdingProposalInject = true ∨ n.equivocatingProposalInject = true ∨
    (n.certMap.lookup n.view).isSome

instance (n : SyncHS) : Decidable n.advances := inferInstanceAs (Decidable (_ ∨ _))

/-- The state in which the callback leaves the view. The equivocation flag is cleared on
the way unless the withholding one is set, which stays. -/
def SyncHS.nextView (p : Platform) (cfg : NodeConfig) (n : SyncHS) (counters : Counters) : SyncHS :=
  { n with
    reputationMap := n.reputationMap.insert (n.view + 1) (newRow p cfg n)
    counters := counters
    view := n.view + 1
    leader := (n.leader + 1) % cfg.numNodes
    equivocatingProposalInject := n.withholdingProposalInject && n.equivocatingProposalInject
    syncChannel := n.syncChannel + 1 }

inductive CallbackStep (p : Platform) (cfg : NodeConfig) (n : SyncHS) : SyncHS → Effect → Prop where
  | kept (counters : Counters) : ¬n.advances → CallbackStep p cfg n
      { n with
        reputationMap := n.reputationMap.insert (n.view + 1) (newRow p cfg n)
        counters := counters
        syncChannel := n.syncChannel + 1 } .none
  | advanced (b : ExtBlock) (counters : Counters) : n.advances →
      n.bc.blocksByHeight.lookup n.bc.head = some b →
      CallbackStep p cfg n (n.nextView p cfg counters) ⟨[],[],[b]⟩

theorem callback_cases {p : Platform} {cfg : NodeConfig} {n n' : SyncHS} {effect : Effect}
    (ran : callback p cfg n = some (n',effect)) : CallbackStep p cfg n n' effect := by
  simp only [callback, acknowledgeHead] at ran
  split at ran
  next withheld =>
    obtain ⟨counters,row⟩ := addNewViewReputaiontoMap_eq p cfg n
    rw [row] at ran
    obtain ⟨b,found,same⟩ := Option.map_eq_some_iff.mp ran
    obtain ⟨rfl,rfl⟩ := Prod.mk.inj same
    convert CallbackStep.advanced b counters (Or.inl withheld) found using 1
    simp [SyncHS.nextView,SyncHS.changeLeader,withheld]
  next unwithheld =>
    split at ran
    next equivocated =>
      obtain ⟨counters,row⟩ := addNewViewReputaiontoMap_eq p cfg { n with equivocatingProposalInject := false }
      rw [row] at ran
      obtain ⟨b,found,same⟩ := Option.map_eq_some_iff.mp ran
      obtain ⟨rfl,rfl⟩ := Prod.mk.inj same
      convert CallbackStep.advanced b counters (Or.inr (Or.inl equivocated)) found using 1
      simp only [SyncHS.nextView, SyncHS.changeLeader, unwithheld, Bool.false_and]
      rfl
    next unflagged =>
      obtain ⟨counters,row⟩ := addNewViewReputaiontoMap_eq p cfg n
      rw [row] at ran
      simp only [SyncHS.getCertForBlockIndex] at ran
      split at ran
      next absent =>
        obtain ⟨rfl,rfl⟩ := Prod.mk.inj (Option.some.inj ran)
        exact .kept counters (by simp [SyncHS.advances,unwithheld,unflagged,absent])
      next cert present =>
        obtain ⟨b,found,same⟩ := Option.map_eq_some_iff.mp ran
        obtain ⟨rfl,rfl⟩ := Prod.mk.inj same
        convert CallbackStep.advanced b counters (Or.inr (Or.inr (by simp [present]))) found using 1
        simp [SyncHS.nextView,SyncHS.changeLeader,unflagged]

theorem callback_total {p : Platform} {cfg : NodeConfig} {n : SyncHS}
    (present : (n.bc.blocksByHeight.lookup n.bc.head).isSome) : (callback p cfg n).isSome := by
  simp only [callback, acknowledgeHead]
  split
  next =>
    obtain ⟨counters,row⟩ := addNewViewReputaiontoMap_eq p cfg n
    rw [row]
    simpa using present
  next =>
    split
    next =>
      obtain ⟨counters,row⟩ := addNewViewReputaiontoMap_eq p cfg { n with equivocatingProposalInject := false }
      rw [row]
      simpa using present
    next =>
      obtain ⟨counters,row⟩ := addNewViewReputaiontoMap_eq p cfg n
      rw [row]
      split
      next => rfl
      next => simpa using present

/-! ## The node -/

theorem JobCase.noAck {p : Platform} {cfg : NodeConfig} {n n' : SyncHS} {order : List Nat} {job : Job}
    {effect : Effect} (step : JobCase p cfg n order job n' effect) : effect.acks = [] := by
  cases step with
  | read _ _ _ step =>
    cases step with
    | conflict _ _ _ _ _ => split <;> rfl
    | _ => rfl
  | voteHandled _ _ _ step =>
    cases step with
    | counted _ _ _ _ counted => cases counted <;> rfl
    | _ => rfl
  | started _ _ step => cases step <;> rfl
  | _ => rfl

section Pending

variable {pending jobs : List Job} {index : Nat} {J job : Job}

theorem mem_eraseIdx_of_ne {α : Type} {l : List α} {a b : α} (found : l[index]? = some a) (member : b ∈ l)
    (other : b ≠ a) : b ∈ l.eraseIdx index := by
  obtain ⟨k,atK⟩ := List.mem_iff_getElem?.mp member
  refine List.mem_eraseIdx_iff_getElem?.mpr ⟨k,?_,atK⟩
  rintro rfl
  exact other (Option.some.inj (atK.symm.trans found))

theorem mem_work (found : pending[index]? = some J) (member : job ∈ pending) (other : job ≠ J)
    (jobs : List Job) : job ∈ pending.eraseIdx index ++ jobs :=
  List.mem_append_left jobs (mem_eraseIdx_of_ne found member other)

theorem of_mem_work (member : job ∈ pending.eraseIdx index ++ jobs) : job ∈ pending ∨ job ∈ jobs :=
  (List.mem_append.mp member).imp_left List.mem_of_mem_eraseIdx

end Pending

/-- Everything that an event can do to a node, with what the node sends. -/
inductive NodeCase (p : Platform) (cfg : NodeConfig) (node : Node) :
    NodeEvent → Node → List Outgoing → Prop where
  | connected : NodeCase p cfg node .connect { node with state := clientConnects cfg node.state } []
  | commanded (cmd : Bytes) (n' : SyncHS) (jobs : List Job) : CommandCase node.state n' ⟨jobs,[],[]⟩ →
      NodeCase p cfg node (.command cmd) ⟨n',node.pending ++ jobs,node.acked⟩ []
  | received (m : SyncHSMsg) : NodeCase p cfg node (.receive m)
      { node with pending := node.pending ++ protocol cfg node.state m } []
  | worked (index : Nat) (order : List Nat) (job : Job) (n' : SyncHS) (jobs : List Job) (sends : List Outgoing) :
      node.pending[index]? = some job → JobCase p cfg node.state order job n' ⟨jobs,sends,[]⟩ →
      NodeCase p cfg node (.work index order) ⟨n',node.pending.eraseIdx index ++ jobs,node.acked⟩ sends
  | calledBack (n' : SyncHS) (acks : List ExtBlock) :
      CallbackStep p cfg { node.state with timers := node.state.timers - 1 } n' ⟨[],[],acks⟩ →
      NodeCase p cfg node .callback
        ⟨n',node.pending,node.acked ++ acks.map fun b => (node.state.view,b)⟩ []

theorem node_cases {p : Platform} {cfg : NodeConfig} {node node' : Node} {e : NodeEvent}
    {sends : List Outgoing} (stepped : node.step p cfg e = some (node',sends)) :
    NodeCase p cfg node e node' sends := by
  cases e with
  | connect =>
    obtain ⟨rfl,rfl⟩ := Prod.mk.inj (Option.some.inj stepped)
    exact .connected
  | receive m =>
    obtain ⟨rfl,rfl⟩ := Prod.mk.inj (Option.some.inj stepped)
    exact .received m
  | command cmd =>
    obtain ⟨⟨n',effect⟩,ran,same⟩ := Option.map_eq_some_iff.mp stepped
    obtain ⟨rfl,rfl⟩ := Prod.mk.inj same
    have case := command_cases ran
    cases case with
    | pooled _ _ _ _ jobs rounds =>
      simpa using NodeCase.commanded cmd _ jobs (.pooled _ _ _ _ jobs rounds)
  | work index order =>
    simp only [Node.step] at stepped
    split at stepped
    next => contradiction
    next job found =>
      obtain ⟨⟨n',jobs,sends',acks⟩,ran,same⟩ := Option.map_eq_some_iff.mp stepped
      obtain ⟨rfl,rfl⟩ := Prod.mk.inj same
      have case := runJob_cases ran
      obtain rfl : acks = [] := case.noAck
      simpa using NodeCase.worked index order job n' jobs sends' found case
  | callback =>
    obtain ⟨⟨n',effect⟩,ran,same⟩ := Option.map_eq_some_iff.mp stepped
    obtain ⟨rfl,rfl⟩ := Prod.mk.inj same
    have case := callback_cases ran
    cases case with
    | kept counters stays => simpa [Effect.none] using NodeCase.calledBack _ [] (.kept counters stays)
    | advanced b counters moves found =>
      simpa using NodeCase.calledBack _ [b] (.advanced b counters moves found)

theorem nodeMachine_cases {p : Platform} {cfg : NodeConfig} {node node' : Node} {e : NodeEvent}
    (moved : (nodeMachine p cfg).step node e = some node') : ∃ sends, NodeCase p cfg node e node' sends := by
  obtain ⟨⟨next,sends⟩,stepped,rfl⟩ := Option.map_eq_some_iff.mp moved
  exact ⟨sends,node_cases stepped⟩

end ReputationSMR
