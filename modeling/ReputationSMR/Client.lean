import ReputationSMR.Evidence

/-! `client.go`, `command.go` and the timer variants of `attackInjection.go`: what a
client connection and a client command do, what a started round does, and the timer
callback that ends it. -/
namespace ReputationSMR

open Wire FiniteMap

/-! ## Clients -/

/-- `ClientMsgHandler` up to its loop. -/
def clientConnects (cfg : NodeConfig) (n : SyncHS) : SyncHS := n.initialReputationMap cfg

/-- `timer.Start` and the goroutine of the timer variants. -/
def startTimer (n : SyncHS) : SyncHS × List Job := ({ n with timers := n.timers + 1 },[.round])

/-- The command is pooled; the first time there are enough commands a round starts, and
afterwards one starts for each token that a callback left in `SyncChannel`. -/
def addCmdsAndStartTimerIfSufficientCommands (cfg : NodeConfig) (n : SyncHS) (cmd : Bytes) : Outcome :=
  let n := { n with pendingCommands := n.pendingCommands ++ [cmd] }
  if n.pendingCommands.length < cfg.blockSize then some (n,.none)
  else
    let (n,first) := if n.gcallFuncFinish then startTimer { n with gcallFuncFinish := false } else (n,[])
    let (n,next) := if n.syncChannel = 1 then startTimer { n with syncChannel := 0 } else (n,[])
    some (n,⟨first ++ next,[],[]⟩)

/-! ## Rounds -/

/-- Two proposals that differ in their extra byte; neither is stored. -/
def equivocationpropose (p : Platform) (cfg : NodeConfig) (n : SyncHS) : Outcome :=
  match n.getCertForBlockIndex n.bc.head with
  | none => some (n,.none)
  | some cert =>
    match n.getCmdsIfSufficient cfg with
    | none => some (n,.none)
    | some (cmds,n) =>
      let prop1 := newCandidateProposal p cfg n cmds cert (n.bc.head + 1) [49]
      let prop2 := newCandidateProposal p cfg n cmds cert (n.bc.head + 1) [50]
      some (n,⟨[],[.equivocating (.prop prop1) (.prop prop2)],[]⟩)

def maliciousproposalpropose (p : Platform) (cfg : NodeConfig) (n : SyncHS) : Outcome :=
  match n.getCertForBlockIndex n.bc.head with
  | none => some (n,.none)
  | some cert =>
    match n.getCmdsIfSufficient cfg with
    | none => some (n,.none)
    | some (cmds,n) =>
      let maliProp := newCandidateProposal p cfg n cmds cert (n.bc.head + 1) []
      some (n,⟨[.maliPropseChannel maliProp],[.broadcast (.prop maliProp)],[]⟩)

/-- The goroutines of `startConsensusTimer` and its variants. -/
def startRound (p : Platform) (cfg : NodeConfig) (n : SyncHS) : Outcome :=
  match cfg.timerMode with
  | .plain => if n.leader = cfg.id then propose p cfg n else some (n,.none)
  | .withhold =>
    -- the leader and the others take the same two branches, on the parity of the leader
    if n.leader % 2 ≠ 0 then
      some (handleWithholdingProposal p { n with withholdingProposalInject := true },.none)
    else if n.leader = cfg.id then propose p cfg { n with withholdingProposalInject := false }
    else some ({ n with withholdingProposalInject := false },.none)
  | .equivocation =>
    if n.leader = cfg.id then
      if cfg.id % 2 ≠ 0 then equivocationpropose p cfg n else propose p cfg n
    else some (n,.none)
  | .maliciousProposal =>
    if n.leader = cfg.id then propose p cfg n
    else if cfg.id % 2 ≠ 0 then maliciousproposalpropose p cfg n else some (n,.none)
  | .maliciousVote =>
    if n.leader = cfg.id then propose p cfg n
    else if cfg.id % 2 ≠ 0 then some ({ n with maliciousVoteInject := true },.none) else some (n,.none)

/-! ## The callback -/

/-- Acknowledges the block at the head and enters the next view; `none` when there is no
block at the head. -/
def acknowledgeHead (cfg : NodeConfig) (n : SyncHS) : Outcome :=
  (n.bc.blocksByHeight.lookup n.bc.head).map fun block =>
    ({ { n with view := n.view + 1 }.changeLeader cfg with syncChannel := n.syncChannel + 1 },⟨[],[],[block]⟩)

def callback (p : Platform) (cfg : NodeConfig) (n : SyncHS) : Outcome :=
  if n.withholdingProposalInject then acknowledgeHead cfg (n.addNewViewReputaiontoMap p cfg)
  else if n.equivocatingProposalInject then
    acknowledgeHead cfg ({ n with equivocatingProposalInject := false }.addNewViewReputaiontoMap p cfg)
  else
    let n := n.addNewViewReputaiontoMap p cfg
    match n.getCertForBlockIndex n.view with
    | none => some ({ n with syncChannel := n.syncChannel + 1 },.none)
    | some _ => acknowledgeHead cfg n

end ReputationSMR
