import Mathlib.Algebra.Group.Action.Defs
import ReputationSMR.Authenticity

/-! Handling messages comes to an end. Every message and every pending job is given a
weight that pays for the job it becomes, for the jobs and messages that the code behind
it leaves, and for one step. Only clients and Byzantine nodes add weight, so they bound
the work of the whole system, in every run and whatever the Byzantine nodes send. -/
namespace ReputationSMR

open Wire FiniteMap

/-! ## Weights

With `h` receivers of a broadcast. The order is that of the definitions: each weight pays
for the ones before it. -/

def reportWeight (h : Nat) : Nat := 2 * h + 2

def voteWeight (h : Nat) : Nat := reportWeight h + 1

def castWeight (h : Nat) : Nat := voteWeight h + h * (voteWeight h + 1) + 1

/-- A forward in `proposeChannel`. -/
def readWeight (h : Nat) : Nat := castWeight h + 1

def relayWeight (h : Nat) : Nat := readWeight h + h * (readWeight h + 1) + 1

/-- A proposal that its own miner forwards: everybody forwards it once more. -/
def returnWeight (h : Nat) : Nat := readWeight h + h * (relayWeight h + 1) + 1

def announceWeight (h : Nat) : Nat := h * (returnWeight h + 1) + 1

def roundWeight (h : Nat) : Nat := announceWeight h + reportWeight h + 1

/-- A job that node `i` has pending. -/
def Job.weight (h i : Nat) : Job → Nat
  | .addCert _ _ | .eqEvidenceChannel _ | .maliProEvidenceChannel _ | .maliVoteEvidenceChannel _ => 1
  | .sendEqProEvidence _ _ | .sendMalivoteEvidence _ | .maliPropseChannel _ => reportWeight h
  | .voteChannel _ => voteWeight h
  | .vote _ => castWeight h
  | .proposeChannel _ => readWeight h
  | .forward x => if x.miner = i then returnWeight h else relayWeight h
  | .proposed _ => announceWeight h
  | .round => roundWeight h

/-- A message on its way to a node. A forward of another node than the miner is not
forwarded again. -/
def SyncHSMsg.weight (h dest : Nat) : SyncHSMsg → Nat
  | .prop x =>
    if x.forwardSender = x.miner then (if x.miner = dest then returnWeight h else relayWeight h) + 1
    else readWeight h + 1
  | .vote _ => voteWeight h + 1
  | .eqevidence _ | .mpevidence _ | .mvevidence _ => 2
  | .ack _ | .tx _ | .unset => 1

def pendingWeight (h i : Nat) (jobs : List Job) : Nat := (jobs.map (Job.weight h i)).sum

def netWeight (h : Nat) (net : List Packet) : Nat := (net.map fun x => x.msg.weight h x.dest).sum

@[simp] theorem pendingWeight_nil (h i : Nat) : pendingWeight h i [] = 0 := rfl

@[simp] theorem pendingWeight_cons (h i : Nat) (job : Job) (jobs : List Job) :
    pendingWeight h i (job :: jobs) = job.weight h i + pendingWeight h i jobs := rfl

@[simp] theorem pendingWeight_append (h i : Nat) (jobs jobs' : List Job) :
    pendingWeight h i (jobs ++ jobs') = pendingWeight h i jobs + pendingWeight h i jobs' := by
  simp [pendingWeight]

@[simp] theorem netWeight_append (h : Nat) (net net' : List Packet) :
    netWeight h (net ++ net') = netWeight h net + netWeight h net' := by
  simp [netWeight]

theorem sum_eraseIdx {α : Type} (w : α → Nat) {l : List α} {index : Nat} {a : α} (found : l[index]? = some a) :
    w a + ((l.eraseIdx index).map w).sum = (l.map w).sum := by
  obtain ⟨inside,rfl⟩ := List.getElem?_eq_some_iff.mp found
  have perm := (List.getElem_cons_eraseIdx_perm inside).map w
  simpa using perm.sum_eq

section Weights

variable {h i : Nat}

theorem relay_le_return : relayWeight h ≤ returnWeight h := by
  have larger : readWeight h + 1 ≤ relayWeight h + 1 := by
    simp only [relayWeight]
    omega
  have product := Nat.mul_le_mul_left h larger
  simp only [relayWeight, returnWeight] at product ⊢
  omega

theorem protocol_weight (cfg : NodeConfig) (n : SyncHS) (m : SyncHSMsg) :
    pendingWeight h i (protocol cfg n m) < m.weight h i := by
  have report : reportWeight h ≤ readWeight h := by
    simp only [readWeight, castWeight, voteWeight]
    omega
  have read : readWeight h ≤ relayWeight h := by
    simp only [relayWeight]
    omega
  have relay := relay_le_return (h := h)
  cases m with
  | prop x =>
    simp only [protocol, SyncHSMsg.weight]
    split
    next sender =>
      split
      next miner =>
        rw [if_pos (sender.trans miner.symm)]
        simp only [pendingWeight_cons, pendingWeight_nil, Job.weight]
        split <;> omega
      next => 
        simp only [pendingWeight_cons, pendingWeight_nil, Job.weight]
        split
        · split <;> omega
        · omega
    next =>
      simp only [pendingWeight_cons, pendingWeight_nil, Job.weight]
      split
      · split <;> omega
      · omega
  | vote v => simp [protocol,SyncHSMsg.weight,Job.weight]
  | eqevidence e | mpevidence e | mvevidence e =>
    simp only [protocol, SyncHSMsg.weight]
    split <;> simp [Job.weight]
  | ack b | tx cmd | unset => simp [protocol,SyncHSMsg.weight]

theorem SyncHSMsg.weight_le (dest : Nat) (m : SyncHSMsg) : m.weight h dest ≤ returnWeight h + 1 := by
  have read : readWeight h ≤ relayWeight h := by
    simp only [relayWeight]
    omega
  have relay := relay_le_return (h := h)
  have small : voteWeight h ≤ readWeight h ∧ 1 ≤ readWeight h := by
    simp only [readWeight, castWeight]
    omega
  cases m with
  | prop x =>
    simp only [SyncHSMsg.weight]
    split
    · split <;> omega
    · omega
  | _ =>
    simp only [SyncHSMsg.weight]
    omega

end Weights

/-! ## One step -/

section Jobs

variable {p : Platform} {c : Cluster} {i view : Nat} {n n' : SyncHS} {effect : Effect}

def Cluster.receivers (c : Cluster) : Nat := c.honestNodes.length

theorem packets_weight (view : Nat) (apart : i ∉ (c.config i).pMap) (o : Outgoing) (bound : Nat)
    (each : ∀ j, j ≠ i → (o.to j).weight c.receivers j ≤ bound) :
    netWeight c.receivers (c.packets i view [o]) ≤ c.receivers * bound := by
  simp only [netWeight, Cluster.packets, List.flatMap_cons, List.flatMap_nil, List.append_nil, List.map_map]
  refine (List.sum_le_card_nsmul _ bound ?_).trans ?_
  · intro x member
    obtain ⟨j,peer,rfl⟩ := List.mem_map.mp member
    refine each j ?_
    rintro rfl
    exact apart (by simpa using (List.mem_filter.mp peer).2)
  · rw [List.length_map, smul_eq_mul]
    exact Nat.mul_le_mul_right bound (List.length_filter_le _ _)

/-- The work that a step leaves behind: the jobs of the node and the messages it sends. -/
def Effect.weight (c : Cluster) (i view : Nat) (effect : Effect) : Nat :=
  pendingWeight c.receivers i effect.jobs + netWeight c.receivers (c.packets i view effect.sends)

@[simp] theorem Effect.weight_none : Effect.none.weight c i view = 0 := rfl

theorem Effect.weight_jobs (jobs : List Job) (acks : List ExtBlock) :
    Effect.weight c i view ⟨jobs,[],acks⟩ = pendingWeight c.receivers i jobs := rfl

theorem VoteStep.weight {cfg : NodeConfig} {v : ProtoVote} {order : List Nat} (step : VoteStep p cfg n v order n' effect) :
    effect.weight c i view < voteWeight c.receivers := by
  cases step with
  | foreign _ _ _ => simp [Effect.weight_jobs,Job.weight,voteWeight]
  | dropped _ _ _ _ => simp [voteWeight]
  | counted _ _ _ _ counted =>
    cases counted with
    | late _ | pooled _ _ _ => simp [voteWeight]
    | certifies _ _ _ => simp [Effect.weight_jobs,Job.weight,voteWeight,reportWeight]

theorem castVote_weight (apart : i ∉ (c.config i).pMap) (v : ProtoVote) :
    Effect.weight c i view ⟨[.voteChannel v],[.broadcast (.vote v)],[]⟩ < castWeight c.receivers := by
  have sent := packets_weight view apart (.broadcast (.vote v)) (voteWeight c.receivers + 1) fun _ _ => le_rfl
  simp only [Effect.weight, pendingWeight_cons, pendingWeight_nil, Job.weight, castWeight]
  omega

theorem ForwardStep.weight (apart : i ∉ (c.config i).pMap) {cfg : NodeConfig} {fprop : Proposal}
    (step : ForwardStep p cfg n fprop n' effect) : effect.weight c i view < readWeight c.receivers := by
  cases step with
  | flagged _ | refused _ _ _ _ | counted _ _ _ _ => simp [readWeight]
  | conflict _ _ _ _ _ =>
    split
    · simp only [Effect.weight_jobs, pendingWeight_cons, pendingWeight_nil, Job.weight, readWeight, castWeight, voteWeight]
      omega
    · simp [readWeight]
  | leads _ _ _ _ _ =>
    refine (castVote_weight apart _).trans ?_
    simp [readWeight]
  | follows _ _ _ _ _ => simp [Effect.weight_jobs,Job.weight,readWeight]

theorem RoundCase.weight (apart : i ∉ (c.config i).pMap) {cfg : NodeConfig} (step : RoundCase p cfg n n' effect) :
    effect.weight c i view < roundWeight c.receivers := by
  have sent (o : Outgoing) : netWeight c.receivers (c.packets i view [o]) ≤ c.receivers * (returnWeight c.receivers + 1) :=
    packets_weight view apart o _ fun j _ => SyncHSMsg.weight_le j (o.to j)
  cases step with
  | idle _ _ _ _ | withholds _ _ => simp [roundWeight]
  | proposes _ _ _ _ _ _ _ _ =>
    simp only [Effect.weight_jobs, pendingWeight_cons, pendingWeight_nil, Job.weight, roundWeight]
    omega
  | equivocates _ _ _ _ =>
    refine lt_of_le_of_lt (Nat.add_le_add_left (sent _) _) ?_
    simp only [pendingWeight_nil, roundWeight, announceWeight]
    omega
  | intrudes _ _ _ _ =>
    refine lt_of_le_of_lt (Nat.add_le_add_left (sent _) _) ?_
    simp only [pendingWeight_cons, pendingWeight_nil, Job.weight, roundWeight, announceWeight]
    omega

theorem report_weight (apart : i ∉ (c.config i).pMap) {job : Job} {m : SyncHSMsg} (one : job.weight c.receivers i = 1)
    (two : ∀ j, m.weight c.receivers j = 2) :
    Effect.weight c i view ⟨[job],[.broadcast m],[]⟩ < reportWeight c.receivers := by
  have sent := packets_weight view apart (.broadcast m) 2 fun j _ => (two j).le
  simp only [Effect.weight, pendingWeight_cons, pendingWeight_nil, one, reportWeight]
  omega

/-- A forward pays for itself in the hands of everybody else. Where the miner forwards its own
proposal, the others forward it again, and no further. -/
theorem forward_weight (apart : i ∉ (c.config i).pMap) (id : (c.config i).id = i) (prop : Proposal) :
    Effect.weight c i view ⟨[.proposeChannel (signForward p (c.config i) prop)],
      [.broadcast (.prop (signForward p (c.config i) prop))],[]⟩ < (Job.forward prop).weight c.receivers i := by
  simp only [Effect.weight, pendingWeight_cons, pendingWeight_nil, Job.weight]
  split
  next own =>
    have sent := packets_weight view apart (.broadcast (.prop (signForward p (c.config i) prop)))
      (relayWeight c.receivers + 1) ?_
    · simp only [returnWeight]
      omega
    · intro j other
      have miner : (signForward p (c.config i) prop).miner ≠ j := fun same => other (same.symm.trans own)
      simp only [Outgoing.to, SyncHSMsg.weight, if_neg miner]
      split
      · exact le_rfl
      · simp only [relayWeight]
        omega
  next foreign =>
    have sent := packets_weight view apart (.broadcast (.prop (signForward p (c.config i) prop)))
      (readWeight c.receivers + 1) ?_
    · simp only [relayWeight]
      omega
    · intro j _
      have sender : (signForward p (c.config i) prop).forwardSender ≠ (signForward p (c.config i) prop).miner :=
        fun same => foreign (same.symm.trans id)
      simp only [Outgoing.to, SyncHSMsg.weight, if_neg sender, le_refl]

theorem Job.weight_pos (h i : Nat) (job : Job) : 0 < job.weight h i := by
  cases job <;> simp only [Job.weight]
  case forward x => split <;> simp [returnWeight,relayWeight]
  all_goals simp [roundWeight,announceWeight,castWeight,voteWeight,readWeight,reportWeight]

/-- Whatever a job leaves behind weighs less than the job. -/
theorem JobCase.weight (view : Nat) (apart : i ∉ (c.config i).pMap) (id : (c.config i).id = i) {order : List Nat} {job : Job}
    (step : JobCase p (c.config i) n order job n' effect) : effect.weight c i view < job.weight c.receivers i := by
  cases step with
  | read _ _ _ step => exact step.weight apart
  | voteHandled _ _ _ step => exact step.weight
  | started _ _ step => exact step.weight apart
  | forwarded _ _ _ _ => exact forward_weight apart id _
  | intruderReported _ _ | eqEvidenceSent _ _ | malivoteEvidenceSent _ =>
    exact report_weight apart rfl fun _ => rfl
  | announced prop =>
    have sent := packets_weight view apart (.broadcast (.prop prop)) _ fun j _ => SyncHSMsg.weight_le j (.prop prop)
    simp only [Effect.weight, pendingWeight_nil, Job.weight, announceWeight]
    omega
  | voted _ _ | misvoted _ _ _ => exact castVote_weight apart _
  | _ => exact Job.weight_pos _ _ _

end Jobs

/-! ## The system -/

def System.weight (c : Cluster) (s : System) : Nat :=
  netWeight c.receivers s.net + ∑ i ∈ c.honestNodes.toFinset, pendingWeight c.receivers i (s.nodes i).pending

def SystemEvent.handles : SystemEvent → Nat
  | .deliver _ | .work _ _ _ => 1
  | _ => 0

/-- What an event adds: a command may start two rounds, an injected message is one message. -/
def SystemEvent.cost (h : Nat) : SystemEvent → Nat
  | .command _ _ => 2 * roundWeight h
  | .inject _ _ => returnWeight h + 1
  | _ => 0

section Systems

variable {p : Platform} {c : Cluster} {s t : System} {i : Nat} {node : Node} {sends : List Outgoing}

theorem weight_moved (honest : i ∈ c.honestNodes) (n' : SyncHS) (pending : List Job) (effect : Effect)
    (acked : List (Nat × ExtBlock)) :
    (s.moved c i ⟨n',pending ++ effect.jobs,acked⟩ effect.sends).weight c +
        pendingWeight c.receivers i (s.nodes i).pending =
      s.weight c + pendingWeight c.receivers i pending + effect.weight c i (s.nodes i).state.view := by
  have member : i ∈ c.honestNodes.toFinset := List.mem_toFinset.mpr honest
  have others : ∑ j ∈ c.honestNodes.toFinset.erase i, pendingWeight c.receivers j
      ((s.moved c i ⟨n',pending ++ effect.jobs,acked⟩ effect.sends).nodes j).pending =
      ∑ j ∈ c.honestNodes.toFinset.erase i, pendingWeight c.receivers j (s.nodes j).pending :=
    Finset.sum_congr rfl fun j other => by rw [moved_other c s i _ _ (Finset.mem_erase.mp other).1]
  have net : (s.moved c i ⟨n',pending ++ effect.jobs,acked⟩ effect.sends).net =
      s.net ++ c.packets i (s.nodes i).state.view effect.sends := rfl
  rw [System.weight, System.weight, ← Finset.add_sum_erase _ _ member, ← Finset.add_sum_erase _ _ member, others,
    moved_self, net, netWeight_append, pendingWeight_append, Effect.weight]
  omega

theorem weight_moved_quiet (absent : i ∉ c.honestNodes) : (s.moved c i node []).weight c = s.weight c := by
  have others : ∑ j ∈ c.honestNodes.toFinset, pendingWeight c.receivers j ((s.moved c i node []).nodes j).pending =
      ∑ j ∈ c.honestNodes.toFinset, pendingWeight c.receivers j (s.nodes j).pending := by
    refine Finset.sum_congr rfl fun j member => ?_
    rw [moved_other c s i node [] ?_]
    rintro rfl
    exact absent (List.mem_toFinset.mp member)
  rw [System.weight, System.weight, others, moved_quiet]

theorem command_weight {cfg : NodeConfig} {n n' : SyncHS} {cmd : Bytes} {effect : Effect}
    (ran : addCmdsAndStartTimerIfSufficientCommands cfg n cmd = some (n',effect)) (view : Nat) :
    effect.weight c i view ≤ 2 * roundWeight c.receivers := by
  simp only [addCmdsAndStartTimerIfSufficientCommands, startTimer] at ran
  split at ran
  next =>
    obtain ⟨rfl,rfl⟩ := Prod.mk.inj (Option.some.inj ran)
    exact Nat.zero_le _
  next =>
    obtain ⟨rfl,rfl⟩ := Prod.mk.inj (Option.some.inj ran)
    rw [Effect.weight_jobs]
    split <;> split <;> simp [Job.weight] <;> omega

theorem weight_taken {k : Nat} {x : Packet} (found : s.net[k]? = some x) :
    x.msg.weight c.receivers x.dest + System.weight c { s with net := s.net.eraseIdx k } = s.weight c := by
  have taken := sum_eraseIdx (fun y : Packet => y.msg.weight c.receivers y.dest) found
  simp only [System.weight, netWeight]
  omega

theorem System.pays_work {index : Nat} {order : List Nat} (regular : c.Regular)
    (apart : ∀ i ∈ c.honestNodes, i ∉ (c.config i).pMap) (honest : i ∈ c.honestNodes)
    (stepped : s.step c p (.work i index order) = some t) : t.weight c + 1 ≤ s.weight c := by
  obtain ⟨node,sends,moves,rfl⟩ := System.act_step stepped
  simp only [Node.step] at moves
  split at moves
  next => contradiction
  next job found =>
    obtain ⟨⟨n',effect⟩,ran,same⟩ := Option.map_eq_some_iff.mp moves
    obtain ⟨rfl,rfl⟩ := Prod.mk.inj same
    have lighter := (runJob_cases ran).weight (s.nodes i).state.view (apart i honest) (regular.id i honest)
    have taken : job.weight c.receivers i + pendingWeight c.receivers i ((s.nodes i).pending.eraseIdx index) =
        pendingWeight c.receivers i (s.nodes i).pending := sum_eraseIdx _ found
    have moved := weight_moved (s := s) honest n' ((s.nodes i).pending.eraseIdx index) effect
      ((s.nodes i).acked ++ effect.acks.map fun b => ((s.nodes i).state.view,b))
    omega

theorem System.pays_command {cmd : Bytes} (honest : i ∈ c.honestNodes)
    (stepped : s.step c p (.command i cmd) = some t) : t.weight c ≤ s.weight c + 2 * roundWeight c.receivers := by
  obtain ⟨node,sends,moves,rfl⟩ := System.act_step stepped
  obtain ⟨⟨n',effect⟩,ran,same⟩ := Option.map_eq_some_iff.mp moves
  obtain ⟨rfl,rfl⟩ := Prod.mk.inj same
  have rounds := command_weight (c := c) (i := i) ran (s.nodes i).state.view
  have moved := weight_moved (s := s) honest n' (s.nodes i).pending effect
    ((s.nodes i).acked ++ effect.acks.map fun b => ((s.nodes i).state.view,b))
  omega

theorem System.pays_callback (honest : i ∈ c.honestNodes) (stepped : s.step c p (.callback i) = some t) :
    t.weight c ≤ s.weight c := by
  obtain ⟨u,acted,rfl⟩ := Option.map_eq_some_iff.mp stepped
  obtain ⟨node,sends,case,rfl⟩ := System.act_cases acted
  cases case with
  | calledBack n' acks _ =>
    have moved := weight_moved (s := s) honest n' (s.nodes i).pending .none
      ((s.nodes i).acked ++ acks.map fun b => ((s.nodes i).state.view,b))
    rw [Effect.weight_none] at moved
    simp only [Effect.none, List.append_nil] at moved
    -- the log is not part of the weight
    change System.weight c (s.moved c i _ []) ≤ s.weight c
    omega

theorem System.pays_connect (honest : i ∈ c.honestNodes) (stepped : s.step c p (.connect i) = some t) :
    t.weight c ≤ s.weight c := by
  obtain ⟨node,sends,moves,rfl⟩ := System.act_step stepped
  obtain ⟨rfl,rfl⟩ := Prod.mk.inj (Option.some.inj moves)
  have moved := weight_moved (s := s) honest (clientConnects (c.config i) (s.nodes i).state) (s.nodes i).pending .none
    (s.nodes i).acked
  rw [Effect.weight_none] at moved
  simp only [Effect.none, List.append_nil] at moved
  omega

theorem System.pays_deliver {k : Nat} (stepped : s.step c p (.deliver k) = some t) :
    t.weight c + 1 ≤ s.weight c := by
  simp only [System.step] at stepped
  split at stepped
  next => contradiction
  next x found =>
    obtain ⟨node,sends,moves,rfl⟩ := System.act_step stepped
    obtain ⟨rfl,rfl⟩ := Prod.mk.inj (Option.some.inj moves)
    have taken := weight_taken (c := c) found
    have lighter := protocol_weight (h := c.receivers) (i := x.dest) (c.config x.dest) (s.nodes x.dest).state x.msg
    dsimp only
    by_cases honest : x.dest ∈ c.honestNodes
    · have moved := weight_moved (s := { s with net := s.net.eraseIdx k }) honest (s.nodes x.dest).state
        (s.nodes x.dest).pending ⟨protocol (c.config x.dest) (s.nodes x.dest).state x.msg,[],[]⟩ (s.nodes x.dest).acked
      rw [Effect.weight_jobs] at moved
      simp only at moved
      omega
    · rw [weight_moved_quiet honest]
      omega

/-- The step lemma: a step is paid for by the weight that it takes away. -/
theorem System.pays (regular : c.Regular) (apart : ∀ i ∈ c.honestNodes, i ∉ (c.config i).pMap) (e : SystemEvent)
    (enabled : s.enabled c p e) (stepped : s.step c p e = some t) :
    t.weight c + e.handles ≤ s.weight c + e.cost c.receivers := by
  have member {i : Nat} (honest : c.honest i) : i ∈ c.honestNodes := (c.mem_honestNodes i).mpr honest
  cases e with
  | connect i => exact System.pays_connect (member enabled) stepped
  | command i cmd => exact System.pays_command (member enabled) stepped
  | work i index order => exact System.pays_work regular apart (member enabled.1) stepped
  | callback i => exact System.pays_callback (member enabled.1) stepped
  | deliver k => exact System.pays_deliver stepped
  | inject dest m =>
    obtain rfl := Option.some.inj stepped
    have bound := SyncHSMsg.weight_le (h := c.receivers) dest m
    simp only [System.weight, netWeight_append, SystemEvent.handles, SystemEvent.cost]
    simp only [netWeight, List.map_cons, List.map_nil, List.sum_singleton]
    omega

def SystemEvent.Internal (e : SystemEvent) : Prop := e.handles = 1

theorem start_weight (c : Cluster) : (System.start c).weight c = 0 := by
  have nothing : ∀ i ∈ c.honestNodes.toFinset,
      pendingWeight c.receivers i ((System.start c).nodes i).pending = 0 := fun _ _ => rfl
  rw [System.weight, Finset.sum_eq_zero nothing]
  rfl

/-- In every run the messages delivered and the jobs done are bounded by what clients and
Byzantine nodes put in: a constant for each command and each injected message. When they
put in no more, handling messages comes to rest, or a node panics. -/
theorem work_bounded_by_input (regular : c.Regular) (apart : ∀ i ∈ c.honestNodes, i ∉ (c.config i).pMap)
    {trace : List SystemEvent} (run : (systemMachine c p).Run (System.start c) trace s) :
    (trace.map SystemEvent.handles).sum ≤ (trace.map (SystemEvent.cost c.receivers)).sum ∧
    ∃ later t, ((systemMachine c p).restrict fun _ => SystemEvent.Internal).Run s later t ∧
      later.length ≤ (trace.map (SystemEvent.cost c.receivers)).sum - (trace.map SystemEvent.handles).sum ∧
      ∀ e : SystemEvent, e.Internal → t.enabled c p e → t.step c p e = none := by
  have account := run.account (System.weight c) SystemEvent.handles (SystemEvent.cost c.receivers)
    fun s e t => System.pays regular apart e
  rw [start_weight] at account
  refine ⟨by omega,?_⟩
  have pays (s : System) (e : SystemEvent) (t : System)
      (admitted : ((systemMachine c p).restrict fun _ => SystemEvent.Internal).enabled s e)
      (moved : s.step c p e = some t) : t.weight c + 1 ≤ s.weight c + 0 := by
    have paid := System.pays regular apart e admitted.1 moved
    cases e with
    | deliver k => exact paid
    | work i index order => exact paid
    | _ => exact absurd admitted.2 (by simp [SystemEvent.Internal,SystemEvent.handles])
  have here : ((systemMachine c p).restrict fun _ => SystemEvent.Internal).Run s [] s := .nil
  obtain ⟨later,t,rest,still⟩ := here.settles (System.weight c) fun s e t => pays s e t
  rw [List.nil_append] at rest
  have few := rest.account (System.weight c) (fun _ => 1) (fun _ => 0) pays
  simp only [List.map_const', List.sum_replicate, smul_eq_mul, mul_one, mul_zero] at few
  exact ⟨later,t,rest,by omega,fun e internal enabled => still e ⟨enabled,internal⟩⟩

end Systems

def firstDelivery : List SystemEvent := [.command 0 [1],.work 0 0 [],.work 0 0 [],.deliver 0]

theorem first_delivery_bounded_by_input :
    (firstDelivery.map SystemEvent.handles).sum ≤ (firstDelivery.map (SystemEvent.cost 2)).sum := by
  obtain ⟨s,run,_⟩ : ∃ s, (systemMachine (Cluster.complete 2 1 false .plain ∅) transparent).Run
      (System.start (Cluster.complete 2 1 false .plain ∅)) firstDelivery s ∧ s.net = [] := by
    apply Guarded.Machine.reaches
    decide +kernel
  have apart : ∀ i ∈ (Cluster.complete 2 1 false .plain ∅).honestNodes,
      i ∉ ((Cluster.complete 2 1 false .plain ∅).config i).pMap := fun i _ => Finset.notMem_erase i _
  exact (work_bounded_by_input (complete_regular 2 1 false .plain ∅) apart run).1

end ReputationSMR
