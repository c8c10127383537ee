import ReputationSMR.FaultFree
import ReputationSMR.BlockAgreement

/-! In a round without faults every node gets the forward of every follower once. The handler of
forwards stops reading when its set is complete, so a copy too many would stay in its channel
and keep the node from finishing the view. The account goes by sender: what is in the set or
the channel of the reader, what is on its way, and what the sender has still to forward. -/
namespace ReputationSMR

open Wire FiniteMap

/-! ## Counting forwards -/

def Job.sentBy (j : Nat) : Job → Bool
  | .proposeChannel x => x.forwardSender == j
  | _ => false

/-- The proposal of the leader that waits to be forwarded. -/
def Job.forwards : Job → Bool
  | .forward _ => true
  | _ => false

def Job.announces : Job → Bool
  | .proposed _ => true
  | _ => false

def SyncHSMsg.sentBy (j : Nat) : SyncHSMsg → Bool
  | .prop x => x.forwardSender == j
  | _ => false

def Outgoing.sentBy (j : Nat) : Outgoing → Bool
  | .broadcast m => m.sentBy j
  | .equivocating m1 m2 => m1.sentBy j || m2.sentBy j

/-- The copies of the forward of node `j` that a node has counted or has still to read. -/
def Node.holds (node : Node) (view j : Nat) : Nat :=
  node.pending.countP (Job.sentBy j) + if j ∈ (row node.state.fpropMap view).keys then 1 else 0

def System.flying (s : System) (j k : Nat) : Nat :=
  s.net.countP fun x => x.dest == k && x.msg.sentBy j

/-- The copies of the proposal that node `j` has still to forward. -/
def System.owed (s : System) (leader j : Nat) : Nat :=
  (s.nodes j).pending.countP Job.forwards + s.flying leader j +
    (s.nodes leader).pending.countP Job.announces

/-- All copies of the forward of node `j` for node `k`, made or to be made. -/
def System.copies (s : System) (leader view j k : Nat) : Nat :=
  (s.nodes k).holds view j + s.flying j k + s.owed leader j

theorem countP_taken {α : Type} (P : α → Bool) {l : List α} {index : Nat} {a : α} (found : l[index]? = some a) :
    l.countP P = (l.eraseIdx index).countP P + if P a then 1 else 0 := by
  obtain ⟨inside,rfl⟩ := List.getElem?_eq_some_iff.mp found
  rw [← (List.getElem_cons_eraseIdx_perm inside).countP_eq, List.countP_cons]

/-! ## One event of a node -/

/-- What an event of node `i` does to the account: the proposals it took from the network, by
sender, are waiting; every copy it sends pays for what it had to forward or to announce. -/
structure Relays (view leader i : Nat) (node node' : Node) (sends : List Outgoing) (got : Nat → Nat) :
    Prop where
  own : ∀ o ∈ sends, ∀ j, o.sentBy j = true → j = i
  holds : ∀ j, j ≠ leader → node'.holds view j ≤
    node.holds view j + got j + if j = i then sends.countP (Outgoing.sentBy i) else 0
  forwards : i ≠ leader → node'.pending.countP Job.forwards + sends.countP (Outgoing.sentBy i) ≤
    node.pending.countP Job.forwards + got leader
  announces : i = leader → node'.pending.countP Job.announces + sends.countP (Outgoing.sentBy i) ≤
    node.pending.countP Job.announces

/-- The jobs that the account is about. -/
def Job.relays : Job → Bool
  | .proposeChannel _ | .forward _ | .proposed _ => true
  | _ => false

theorem countP_relays {P : Job → Bool} (only : ∀ job, P job = true → job.relays = true) {jobs : List Job}
    (none : ∀ job ∈ jobs, job.relays = false) : jobs.countP P = 0 := by
  apply List.countP_eq_zero.mpr
  intro job member counted
  exact absurd (only job counted) (by simp [none job member])

section Counts

variable {jobs : List Job} (none : ∀ job ∈ jobs, job.relays = false)

include none

theorem countP_sentBy (j : Nat) : jobs.countP (Job.sentBy j) = 0 :=
  countP_relays (fun job => by cases job <;> simp [Job.sentBy,Job.relays]) none

theorem countP_forwards : jobs.countP Job.forwards = 0 :=
  countP_relays (fun job => by cases job <;> simp [Job.forwards,Job.relays]) none

theorem countP_announces : jobs.countP Job.announces = 0 :=
  countP_relays (fun job => by cases job <;> simp [Job.announces,Job.relays]) none

end Counts

theorem countP_silent {sends : List Outgoing} (silent : ∀ o ∈ sends, ∀ j, o.sentBy j = false) (i : Nat) :
    sends.countP (Outgoing.sentBy i) = 0 := by
  apply List.countP_eq_zero.mpr
  intro o member counted
  exact absurd counted (by simp [silent o member i])

section Events

variable {view leader i : Nat} {node : Node} {n' : SyncHS} {jobs : List Job} {sends : List Outgoing}
  {acked : List (Nat × ExtBlock)}

theorem Relays.quiet {pending : List Job} (fewer : pending.Sublist node.pending)
    (same : n'.fpropMap = node.state.fpropMap) (none : ∀ job ∈ jobs, job.relays = false)
    (silent : ∀ o ∈ sends, ∀ j, o.sentBy j = false) :
    Relays view leader i node ⟨n',pending ++ jobs,acked⟩ sends fun _ => 0 := by
  refine ⟨?_,?_,?_,?_⟩
  · intro o member j sent
    exact absurd sent (by simp [silent o member j])
  · intro j _
    have less := fewer.countP_le (p := Job.sentBy j)
    simp only [Node.holds, List.countP_append, countP_sentBy none, same, countP_silent silent]
    split <;> split <;> omega
  · intro _
    have less := fewer.countP_le (p := Job.forwards)
    simp only [List.countP_append, countP_forwards none, countP_silent silent]
    omega
  · intro _
    have less := fewer.countP_le (p := Job.announces)
    simp only [List.countP_append, countP_announces none, countP_silent silent]
    omega

theorem Relays.forwarded {index : Nat} {x y : Proposal} (found : node.pending[index]? = some (.forward x))
    (sender : y.forwardSender = i) (follower : i ≠ leader) :
    Relays view leader i node ⟨node.state,node.pending.eraseIdx index ++ [.proposeChannel y],acked⟩
      [.broadcast (.prop y)] fun _ => 0 := by
  refine ⟨?_,?_,?_,fun same => absurd same follower⟩
  · intro o member j sent
    obtain rfl := List.mem_singleton.mp member
    exact (beq_iff_eq.mp sent).symm.trans sender
  · intro j _
    have taken := countP_taken (Job.sentBy j) found
    simp only [Node.holds, List.countP_append, List.countP_singleton, Job.sentBy, Outgoing.sentBy, SyncHSMsg.sentBy,
      sender, beq_iff_eq, if_true] at taken ⊢
    by_cases own : j = i
    · simp only [own, if_true] at taken ⊢
      split <;> omega
    · simp only [own, Ne.symm own, if_false] at taken ⊢
      split <;> omega
  · intro _
    have taken := countP_taken Job.forwards found
    simp only [List.countP_append, List.countP_singleton, Job.forwards, Outgoing.sentBy, SyncHSMsg.sentBy, sender,
      beq_self_eq_true, if_true, Bool.false_eq_true, if_false] at taken ⊢
    omega

theorem Relays.announced {index : Nat} {x : Proposal} (found : node.pending[index]? = some (.proposed x))
    (same : n'.fpropMap = node.state.fpropMap) (sender : x.forwardSender = i) (leads : i = leader) :
    Relays view leader i node ⟨n',node.pending.eraseIdx index ++ [],acked⟩ [.broadcast (.prop x)] fun _ => 0 := by
  refine ⟨?_,?_,fun follower => absurd leads follower,?_⟩
  · intro o member j sent
    obtain rfl := List.mem_singleton.mp member
    exact (beq_iff_eq.mp sent).symm.trans sender
  · intro j other
    have less := (List.eraseIdx_sublist node.pending index).countP_le (p := Job.sentBy j)
    simp only [Node.holds, List.append_nil, same, leads, other, if_false]
    split <;> omega
  · intro _
    have taken := countP_taken Job.announces found
    simp only [List.append_nil, List.countP_singleton, Job.announces, Outgoing.sentBy, SyncHSMsg.sentBy, sender,
      beq_self_eq_true, if_true] at taken ⊢
    omega

theorem Relays.read {index : Nat} {x : Proposal} (found : node.pending[index]? = some (.proposeChannel x))
    (keys : ∀ j ∈ (row n'.fpropMap view).keys, j ∈ (row node.state.fpropMap view).keys ∨ x.forwardSender = j)
    (none : ∀ job ∈ jobs, job.relays = false) (silent : ∀ o ∈ sends, ∀ j, o.sentBy j = false) :
    Relays view leader i node ⟨n',node.pending.eraseIdx index ++ jobs,acked⟩ sends fun _ => 0 := by
  have quiet : Relays view leader i node ⟨node.state,node.pending.eraseIdx index ++ jobs,acked⟩ sends fun _ => 0 :=
    .quiet (List.eraseIdx_sublist _ _) rfl none silent
  refine ⟨quiet.own,?_,quiet.forwards,quiet.announces⟩
  intro j _
  have taken := countP_taken (Job.sentBy j) found
  have joined := keys j
  simp only [Job.sentBy, beq_iff_eq] at taken
  simp only [Node.holds, List.countP_append, countP_sentBy none, countP_silent silent]
  by_cases after : j ∈ (row n'.fpropMap view).keys
  · rcases joined after with before | sender
    · simp only [after, before, if_true]
      split <;> omega
    · simp only [after, sender, if_true] at taken ⊢
      split <;> split <;> omega
  · simp only [after, if_false]
    split <;> split <;> omega

end Events

theorem ForwardStep.keys {p : Platform} {cfg : NodeConfig} {n n' : SyncHS} {fprop : Proposal} {effect : Effect}
    (step : ForwardStep p cfg n fprop n' effect) (v : Nat) :
    ∀ j ∈ (row n'.fpropMap v).keys, j ∈ (row n.fpropMap v).keys ∨ fprop.forwardSender = j := by
  intro j member
  obtain ⟨x,found⟩ := (mem_keys_iff _ _).mp member
  rcases step.forwards found with before | ⟨_,sender,rfl,_⟩
  · exact Or.inl ((mem_keys_iff _ _).mpr ⟨x,before⟩)
  · exact Or.inr sender.symm

theorem ForwardStep.relays {p : Platform} {cfg : NodeConfig} {n n' : SyncHS} {fprop : Proposal} {effect : Effect}
    (step : ForwardStep p cfg n fprop n' effect) :
    (∀ job ∈ effect.jobs, job.relays = false) ∧ ∀ o ∈ effect.sends, ∀ j, o.sentBy j = false := by
  cases step with
  | flagged _ | refused _ _ _ _ | counted _ _ _ _ => exact ⟨by simp [Effect.none],by simp [Effect.none]⟩
  | conflict _ _ _ _ _ => split <;> exact ⟨by simp [Effect.none,Job.relays],by simp [Effect.none]⟩
  | leads _ _ _ _ _ => exact ⟨by simp [Job.relays],by simp [Outgoing.sentBy,SyncHSMsg.sentBy]⟩
  | follows _ _ _ _ _ => exact ⟨by simp [Job.relays],by simp⟩

theorem VoteStep.relays {p : Platform} {cfg : NodeConfig} {n n' : SyncHS} {v : ProtoVote} {order : List Nat}
    {effect : Effect} (step : VoteStep p cfg n v order n' effect) :
    (∀ job ∈ effect.jobs, job.relays = false) ∧ ∀ o ∈ effect.sends, ∀ j, o.sentBy j = false := by
  cases step with
  | foreign _ _ _ => exact ⟨by simp [Job.relays],by simp⟩
  | dropped _ _ _ _ => exact ⟨by simp [Effect.none],by simp [Effect.none]⟩
  | counted _ _ _ _ counted =>
    cases counted with
    | late _ | pooled _ _ _ => exact ⟨by simp [Effect.none],by simp [Effect.none]⟩
    | certifies _ _ _ => exact ⟨by simp [Job.relays],by simp⟩

theorem Round.Active.relays {p : Platform} {z : Setting} {R : Round} {i index : Nat} {node : Node} {order : List Nat}
    {job : Job} {n' : SyncHS} {jobs : List Job} {sends : List Outgoing} (active : R.Active p z i node)
    (mode : z.timerMode = .plain ∨ z.timerMode = .withhold) (found : node.pending[index]? = some job)
    (case : JobCase p (z.config i) node.state order job n' ⟨jobs,sends,[]⟩) (acked : List (Nat × ExtBlock)) :
    Relays R.common.view R.common.leader i node ⟨n',node.pending.eraseIdx index ++ jobs,acked⟩ sends fun _ => 0 := by
  have allowed := active.jobs job (List.mem_of_getElem? found)
  have fewer := List.eraseIdx_sublist node.pending index
  cases case with
  | forwardRefused _ => exact .quiet fewer rfl (by simp) (by simp)
  | forwarded x _ _ _ => exact .forwarded found rfl allowed.1
  | read fprop _ _ step => exact .read found (step.keys _) step.relays.1 step.relays.2
  | voteHandled _ _ _ step =>
    exact .quiet fewer (step.unread SyncHS.fpropMap fun _ _ _ => rfl) step.relays.1 step.relays.2
  | started _ _ step =>
    have same := step.unread SyncHS.fpropMap fun _ _ _ _ _ _ _ => rfl
    have follower : i ≠ R.common.leader := allowed
    cases step with
    | idle _ _ _ _ | withholds _ _ => exact .quiet fewer same (by simp) (by simp)
    | proposes _ _ _ leads _ _ _ _ => exact absurd (leads.symm.trans active.reads.leader) follower
    | equivocates _ _ _ injects | intrudes _ _ _ injects =>
      rcases mode with plain | withhold
      · cases plain.symm.trans injects
      · cases withhold.symm.trans injects
  | announced x =>
    obtain ⟨leads,rfl⟩ := allowed
    exact .announced found rfl leads.symm leads
  | voted _ _ | misvoted _ _ _ =>
    exact .quiet fewer rfl (by simp [Job.relays]) (by simp [Outgoing.sentBy,SyncHSMsg.sentBy])
  | stored _ _ => exact .quiet fewer rfl (by simp) (by simp)
  | _ => exact allowed.elim

theorem Round.AllowsPacket.relays {p : Platform} {z : Setting} {R : Round} {x : Packet} (allows : R.AllowsPacket p z x)
    {node : Node} (leader : node.state.leader = R.common.leader) (cfg : NodeConfig) :
    Relays R.common.view R.common.leader x.dest node
      ⟨node.state,node.pending ++ protocol cfg node.state x.msg,node.acked⟩ []
      fun j => if x.msg.sentBy j then 1 else 0 := by
  refine ⟨by simp,?_,?_,?_⟩
  · intro j follower
    rcases allows.msg with ⟨msg,_⟩ | ⟨sender,_,other,msg⟩ | ⟨sender,_,msg⟩
    · rw [msg, protocol_prop leader]
      simp [Node.holds,Job.sentBy]
    · rw [msg, protocol_forward leader cfg other]
      by_cases same : (R.forward p sender).forwardSender = j
      · simp only [Node.holds, List.countP_append, List.countP_singleton, Job.sentBy, SyncHSMsg.sentBy, same,
          beq_self_eq_true, if_true]
        omega
      · simp only [Node.holds, List.countP_append, List.countP_singleton, Job.sentBy, SyncHSMsg.sentBy, beq_iff_eq,
          if_neg same]
        omega
    · rw [msg]
      simp [Node.holds,protocol,Job.sentBy]
  · intro _
    rcases allows.msg with ⟨msg,_⟩ | ⟨sender,_,other,msg⟩ | ⟨sender,_,msg⟩
    · rw [msg, protocol_prop leader]
      simp [Job.forwards,SyncHSMsg.sentBy,Round.prop]
    · rw [msg, protocol_forward leader cfg other]
      simp [Job.forwards]
    · rw [msg]
      simp [protocol,Job.forwards]
  · intro _
    rcases allows.msg with ⟨msg,_⟩ | ⟨sender,_,other,msg⟩ | ⟨sender,_,msg⟩
    · rw [msg, protocol_prop leader]
      simp [Job.announces]
    · rw [msg, protocol_forward leader cfg other]
      simp [Job.announces]
    · rw [msg]
      simp [protocol,Job.announces]

/-! ## The network -/

section Network

variable {z : Setting} {s t : System} {i j k view leader : Nat} {node : Node} {sends : List Outgoing}
  {got : Nat → Nat}

theorem packets_flying (i view : Nat) (sends : List Outgoing) (j k : Nat) :
    (z.cluster.packets i view sends).countP (fun x => x.dest == k && x.msg.sentBy j) ≤
      if k = i then 0 else sends.countP (Outgoing.sentBy j) := by
  have peers : (z.cluster.honestNodes.filter fun k => k ∈ (z.cluster.config i).pMap).Nodup :=
    (List.nodup_range.filter _).filter _
  induction sends with
  | nil => simp [Cluster.packets]
  | cons o sends ih =>
    have one : (z.cluster.packets i view [o]).countP (fun x => x.dest == k && x.msg.sentBy j) ≤
        if k = i then 0 else if o.sentBy j then 1 else 0 := by
      simp only [Cluster.packets, List.flatMap_cons, List.flatMap_nil, List.append_nil, List.countP_map]
      by_cases self : k = i
      · simp only [self, if_true, Nat.le_zero, List.countP_eq_zero]
        intro peer member
        obtain ⟨_,known⟩ := List.mem_filter.mp member
        have other := (Setting.mem_pMap.mp (of_decide_eq_true known)).1
        simp [other]
      · rw [if_neg self]
        by_cases sent : o.sentBy j = true
        · rw [if_pos sent]
          calc _ ≤ (z.cluster.honestNodes.filter fun k => k ∈ (z.cluster.config i).pMap).count k := by
                apply List.countP_mono_left
                intro peer _ both
                simp only [Function.comp_apply, Bool.and_eq_true, beq_iff_eq] at both ⊢
                exact both.1
            _ ≤ 1 := List.nodup_iff_count_le_one.mp peers k
        · rw [if_neg sent, Nat.le_zero, List.countP_eq_zero]
          intro peer _ both
          simp only [Function.comp_apply, Bool.and_eq_true] at both
          apply sent
          cases o with
          | broadcast m => exact both.2
          | equivocating m1 m2 =>
            have second := both.2
            simp only [Outgoing.to] at second
            simp only [Outgoing.sentBy, Bool.or_eq_true]
            split at second
            · exact Or.inl second
            · exact Or.inr second
    have split_ : z.cluster.packets i view (o :: sends) =
        z.cluster.packets i view [o] ++ z.cluster.packets i view sends := by
      simp [Cluster.packets]
    rw [split_, List.countP_append, List.countP_cons]
    by_cases self : k = i
    · simp only [if_pos self] at one ih ⊢
      omega
    · simp only [if_neg self] at one ih ⊢
      omega

theorem Relays.copies_le (relays : Relays view leader i (s.nodes i) node sends got)
    (nodes : t.nodes = Function.update s.nodes i node)
    (flies : ∀ j k, t.flying j k + (if k = i then got j else 0) ≤
      s.flying j k + if k = i then 0 else sends.countP (Outgoing.sentBy j))
    (follower : j ≠ leader) (k : Nat) : t.copies leader view j k ≤ s.copies leader view j k := by
  have foreign {j : Nat} (other : j ≠ i) : sends.countP (Outgoing.sentBy j) = 0 := by
    apply List.countP_eq_zero.mpr
    intro o member sent
    exact other (relays.own o member j sent)
  have self : t.nodes i = node := by rw [nodes, Function.update_self]
  have others {k : Nat} (other : k ≠ i) : t.nodes k = s.nodes k := by rw [nodes, Function.update_of_ne other]
  have holds := relays.holds j follower
  have flying := flies j k
  have announcing := flies leader j
  simp only [System.copies, System.owed]
  by_cases sender : j = i
  · -- the copies that it sends pay for what it had to forward
    subst sender
    have forwards := relays.forwards follower
    rw [self, others follower.symm]
    simp only [if_true] at holds announcing
    by_cases reader : k = j
    · subst reader
      rw [self]
      simp only [if_true] at flying
      omega
    · rw [others reader]
      simp only [if_neg reader] at flying
      omega
  · rw [others sender]
    simp only [if_neg sender, foreign sender] at holds flying announcing
    have reading : (t.nodes k).holds view j + t.flying j k ≤ (s.nodes k).holds view j + s.flying j k := by
      by_cases reader : k = i
      · subst reader
        rw [self]
        simp only [if_true] at flying
        omega
      · rw [others reader]
        simp only [if_neg reader] at flying
        omega
    by_cases leads : i = leader
    · have announces := relays.announces leads
      rw [← leads] at announcing ⊢
      rw [self]
      omega
    · rw [others (Ne.symm leads)]
      rw [foreign (Ne.symm leads)] at announcing
      omega

theorem copies_moved (relays : Relays view leader i (s.nodes i) node sends fun _ => 0) (follower : j ≠ leader) (k : Nat) :
    (s.moved z.cluster i node sends).copies leader view j k ≤ s.copies leader view j k := by
  refine relays.copies_le rfl ?_ follower k
  intro j k
  have sent := packets_flying (z := z) i (s.nodes i).state.view sends j k
  simp only [System.flying, System.moved, List.countP_append, ite_self, Nat.add_zero]
  omega

theorem copies_delivered {x : Packet} {index : Nat} (found : s.net[index]? = some x)
    (relays : Relays view leader x.dest (s.nodes x.dest) node [] fun j => if x.msg.sentBy j then 1 else 0)
    (follower : j ≠ leader) (k : Nat) :
    ({ s with net := s.net.eraseIdx index }.moved z.cluster x.dest node []).copies leader view j k ≤
      s.copies leader view j k := by
  refine relays.copies_le rfl ?_ follower k
  intro j k
  have taken := countP_taken (fun x : Packet => x.dest == k && x.msg.sentBy j) found
  have net : ({ s with net := s.net.eraseIdx index }.moved z.cluster x.dest node []).net = s.net.eraseIdx index :=
    moved_quiet _ _ _ _
  simp only [System.flying, net, List.countP_nil, ite_self, Nat.add_zero]
  by_cases here : k = x.dest
  · subst here
    simp only [beq_self_eq_true, Bool.true_and, if_true] at taken ⊢
    omega
  · simp only [if_neg here]
    omega

end Network

/-! ## Runs -/

/-- Nothing is on its way, and no node has more to do than to start its round. -/
structure Calm (z : Setting) (s : System) : Prop where
  silent : s.net = []
  rounds : ∀ k < z.size, ∀ job ∈ (s.nodes k).pending, job = .round

/-- In the latest view that a node has reached, there is at most one copy of each forward for
each node. -/
structure Single (z : Setting) (s : System) (view : Nat) : Prop where
  reached : ∃ k < z.size, (s.nodes k).state.view = view
  latest : ∀ k < z.size, (s.nodes k).state.view ≤ view
  once : ∀ j < z.size, j ≠ leaderOf z.size view → ∀ k < z.size, s.copies (leaderOf z.size view) view j k ≤ 1

def Unrepeated (z : Setting) (s : System) : Prop := Calm z s ∨ ∃ view, Single z s view

section Unrepeating

variable {p : Platform} {z : Setting} {s t : System} {C : Common} {i : Nat} {node : Node}

theorem Common.Good.turn (good : C.Good p z.size) : leaderOf z.size C.view = C.leader := by
  rw [leaderOf, ← good.head, Nat.add_sub_cancel, good.leader]

theorem rounds_relay {jobs : List Job} (rounds : ∀ job ∈ jobs, job = .round) : ∀ job ∈ jobs, job.relays = false := by
  intro job member
  rw [rounds job member]
  rfl

theorem Calm.copies_le_one (calm : Calm z s) {leader view j k : Nat} (leads : leader < z.size) (sender : j < z.size)
    (reader : k < z.size) : s.copies leader view j k ≤ 1 := by
  simp only [System.copies, System.owed, Node.holds, System.flying, calm.silent, List.countP_nil,
    countP_sentBy (rounds_relay (calm.rounds k reader)), countP_forwards (rounds_relay (calm.rounds j sender)),
    countP_announces (rounds_relay (calm.rounds leader leads))]
  split <;> omega

theorem Calm.moved (calm : Calm z s) (rounds : ∀ job ∈ node.pending, job = .round) :
    Calm z (s.moved z.cluster i node []) := by
  refine ⟨(moved_quiet _ _ _ _).trans calm.silent,?_⟩
  intro k inside
  by_cases same : k = i
  · subst same
    rw [moved_self]
    exact rounds
  · rw [moved_other _ _ _ _ _ same]
    exact calm.rounds k inside

theorem Aligned.latest (aligned : Aligned p z s C) {k : Nat} (inside : k < z.size) :
    (s.nodes k).state.view ≤ C.view := by
  by_cases here : (s.nodes k).state.view = C.view
  · exact here.le
  · have view := (aligned.ready k inside here).view
    omega

theorem Aligned.calm (aligned : Aligned p z s C) (silent : s.net = [])
    (waits : ∀ k < z.size, (s.nodes k).state.view = C.view → ∀ job ∈ (s.nodes k).pending, job = .round) :
    Calm z s := by
  refine ⟨silent,?_⟩
  intro k inside
  by_cases here : (s.nodes k).state.view = C.view
  · exact waits k inside here
  · simp [(aligned.ready k inside here).pending]

theorem Withholding.rounds (withholding : Withholding p z C node) : ∀ job ∈ node.pending, job = .round := by
  cases withholding with
  | before _ _ only _ => exact only
  | after ready => simp [ready.pending]

theorem Unrepeated.once (unrepeated : Unrepeated z s) (several : 2 ≤ z.size) (aligned : Aligned p z s C)
    (leads : (s.nodes C.leader).state.view = C.view) {j k : Nat} (sender : j < z.size) (follower : j ≠ C.leader)
    (reader : k < z.size) : s.copies C.leader C.view j k ≤ 1 := by
  have inside : C.leader < z.size := aligned.good.leader_lt (by omega)
  rcases unrepeated with calm | ⟨view,single⟩
  · exact calm.copies_le_one inside sender reader
  · obtain ⟨latest,within,here⟩ := single.reached
    have upper := aligned.latest within
    have lower := single.latest C.leader inside
    obtain rfl : view = C.view := by omega
    have once := single.once j sender
    rw [aligned.good.turn] at once
    exact once follower k reader

theorem Single.of_copies (several : 2 ≤ z.size) (aligned : Aligned p z s C) (unrepeated : Unrepeated z s)
    (leads : (s.nodes C.leader).state.view = C.view) (latest : ∀ k < z.size, (t.nodes k).state.view ≤ C.view)
    (still : (t.nodes C.leader).state.view = C.view)
    (copies : ∀ j, j ≠ C.leader → ∀ k, t.copies C.leader C.view j k ≤ s.copies C.leader C.view j k) :
    Single z t C.view := by
  refine ⟨⟨C.leader,aligned.good.leader_lt (by omega),still⟩,latest,?_⟩
  rw [aligned.good.turn]
  intro j sender follower k reader
  exact (copies j follower k).trans (unrepeated.once several aligned leads sender follower reader)

theorem moved_view (s : System) (i : Nat) (node : Node) (same : node.state.view = (s.nodes i).state.view)
    (sends : List Outgoing) (k : Nat) :
    ((s.moved z.cluster i node sends).nodes k).state.view = (s.nodes k).state.view := by
  by_cases own : k = i
  · subst own
    rw [moved_self, same]
  · rw [moved_other _ _ _ _ _ own]

theorem Calm.opens (calm : Calm z s) {leader view : Nat} (absent : ∀ k < z.size, (s.nodes k).state.fpropMap.lookup view = none)
    (leads : leader < z.size) {n' : SyncHS} (same : n'.fpropMap = (s.nodes leader).state.fpropMap) {pending : List Job}
    (rounds : ∀ job ∈ pending, job = .round) (x : Proposal) (acked : List (Nat × ExtBlock)) {j k : Nat}
    (sender : j < z.size) (reader : k < z.size) :
    (s.moved z.cluster leader ⟨n',pending ++ [.proposed x],acked⟩ []).copies leader view j k ≤ 1 := by
  let t := s.moved z.cluster leader ⟨n',pending ++ [.proposed x],acked⟩ []
  have self : t.nodes leader = ⟨n',pending ++ [.proposed x],acked⟩ := moved_self _ _ _ _ _
  have none := rounds_relay rounds
  have held (k : Nat) (inside : k < z.size) : (t.nodes k).holds view j = 0 ∧ (t.nodes k).pending.countP Job.forwards = 0 := by
    by_cases own : k = leader
    · subst own
      rw [self]
      have empty : row n'.fpropMap view = ∅ := by rw [same]; exact Round.fresh_row (absent k inside)
      simp [Node.holds,countP_sentBy none,countP_forwards none,Job.sentBy,Job.forwards,empty]
    · have other : t.nodes k = s.nodes k := moved_other _ _ _ _ _ own
      have quiet := rounds_relay (calm.rounds k inside)
      have empty : row (s.nodes k).state.fpropMap view = ∅ := Round.fresh_row (absent k inside)
      rw [other]
      simp [Node.holds,countP_sentBy quiet,countP_forwards quiet,empty]
  have announced : (t.nodes leader).pending.countP Job.announces = 1 := by
    rw [self]
    simp [countP_announces none,Job.announces]
  simp only [System.copies, System.owed]
  rw [(held k reader).1, (held j sender).2, announced]
  simp [System.flying,calm.silent]

theorem Unrepeated.command (unrepeated : Unrepeated z s) {n' : SyncHS} {jobs : List Job}
    (case : CommandCase (s.nodes i).state n' ⟨jobs,[],[]⟩) (inside : i < z.size) :
    Unrepeated z (s.moved z.cluster i ⟨n',(s.nodes i).pending ++ jobs,(s.nodes i).acked⟩ []) := by
  obtain ⟨view,same,rounds⟩ : n'.view = (s.nodes i).state.view ∧ n'.fpropMap = (s.nodes i).state.fpropMap ∧
      ∀ job ∈ jobs, job = .round := by
    cases case with
    | pooled _ _ _ _ _ rounds => exact ⟨rfl,rfl,rounds⟩
  rcases unrepeated with calm | ⟨latest,single⟩
  · refine Or.inl (calm.moved fun job member => ?_)
    exact (List.mem_append.mp member).elim (calm.rounds i inside job) (rounds job)
  · have views (k : Nat) := moved_view (z := z) s i ⟨n',(s.nodes i).pending ++ jobs,(s.nodes i).acked⟩ view [] k
    refine Or.inr ⟨latest,?_,?_,?_⟩
    · simpa only [views] using single.reached
    · simpa only [views] using single.latest
    · intro j sender follower k reader
      refine (copies_moved ?_ follower k).trans (single.once j sender follower k reader)
      exact .quiet (List.Sublist.refl _) same (rounds_relay rounds) (by simp)

theorem Unrepeated.deliver (several : 2 ≤ z.size) (aligned : Aligned p z s C) (unrepeated : Unrepeated z s) {k : Nat}
    {x : Packet} (found : s.net[k]? = some x) (lockStep : LockStep z.cluster s (.deliver k)) :
    Unrepeated z ({ s with net := s.net.eraseIdx k }.moved z.cluster x.dest
      ⟨(s.nodes x.dest).state,(s.nodes x.dest).pending ++
        protocol (z.cluster.config x.dest) (s.nodes x.dest).state x.msg,(s.nodes x.dest).acked⟩ []) := by
  have member := List.mem_of_getElem? found
  cases aligned.phase with
  | waiting _ silent _ | withheld _ silent _ => simp [silent] at member
  | running R common good _ active leads accounting =>
    subst common
    have allows := accounting.packets x member
    have entered : (s.nodes x.dest).state.view = R.common.view := by
      by_contra outside
      have view := (aligned.ready x.dest allows.dest outside).view
      have reached := lockStep x found R.common.view allows.tag x.dest
        ((Cluster.mem_honestNodes _ _).mpr (Setting.honest.mpr allows.dest))
      omega
    have leader := (active x.dest allows.dest entered).reads.leader
    have views (k' : Nat) := moved_view (z := z) { s with net := s.net.eraseIdx k } x.dest
      ⟨(s.nodes x.dest).state,(s.nodes x.dest).pending ++
        protocol (z.cluster.config x.dest) (s.nodes x.dest).state x.msg,(s.nodes x.dest).acked⟩ rfl [] k'
    refine Or.inr ⟨R.common.view,.of_copies several aligned unrepeated leads ?_ ((views _).trans leads) ?_⟩
    · intro k inside
      exact (views k).trans_le (aligned.latest inside)
    · exact fun j follower k => copies_delivered found (allows.relays leader _) follower k

theorem Unrepeated.work (several : 2 ≤ z.size) (mode : z.timerMode = .plain ∨ z.timerMode = .withhold)
    (aligned : Aligned p z s C) (unrepeated : Unrepeated z s) (inside : i < z.size) {index : Nat} {order : List Nat}
    {job : Job} {n' : SyncHS} {jobs : List Job} {sends : List Outgoing}
    (found : (s.nodes i).pending[index]? = some job)
    (case : JobCase p (z.config i) (s.nodes i).state order job n' ⟨jobs,sends,[]⟩) :
    Unrepeated z (s.moved z.cluster i ⟨n',(s.nodes i).pending.eraseIdx index ++ jobs,(s.nodes i).acked⟩ sends) := by
  have here : (s.nodes i).state.view = C.view := by
    by_contra outside
    simp [(aligned.ready i inside outside).pending] at found
  have views (k : Nat) := moved_view (z := z) s i
    ⟨n',(s.nodes i).pending.eraseIdx index ++ jobs,(s.nodes i).acked⟩ case.informed.view sends k
  -- a round that is not running: the only work is to start it
  have starts (calm : Calm z s) (leads : (s.nodes i).state.leader = C.leader)
      (absent : Proposes z C → ∀ k < z.size, (s.nodes k).state.fpropMap.lookup C.view = none) :
      Unrepeated z (s.moved z.cluster i ⟨n',(s.nodes i).pending.eraseIdx index ++ jobs,(s.nodes i).acked⟩ sends) := by
    obtain rfl := calm.rounds i inside job (List.mem_of_getElem? found)
    have rest : ∀ job ∈ (s.nodes i).pending.eraseIdx index, job = .round :=
      fun job member => calm.rounds i inside job (List.mem_of_mem_eraseIdx member)
    cases case with
    | started _ _ step =>
      have same := step.unread SyncHS.fpropMap fun _ _ _ _ _ _ _ => rfl
      cases step with
      | idle _ _ _ _ | withholds _ _ =>
        refine Or.inl (calm.moved ?_)
        simpa using rest
      | proposes _ cert _ own plain _ _ _ =>
        obtain rfl : i = C.leader := own.symm.trans leads
        have missing := absent fun withholds => plain ⟨withholds.1,by rw [leads]; exact withholds.2⟩
        refine Or.inr ⟨C.view,⟨C.leader,inside,(views _).trans here⟩,?_,?_⟩
        · intro k within
          exact (views k).trans_le (aligned.latest within)
        · rw [aligned.good.turn]
          exact fun j sender _ k reader => calm.opens missing inside same rest _ _ sender reader
      | equivocates _ _ _ injects | intrudes _ _ _ injects =>
        rcases mode with plain | withhold
        · cases plain.symm.trans injects
        · cases withhold.symm.trans injects
  cases aligned.phase with
  | waiting proposes silent waits =>
    refine starts (aligned.calm silent fun k within entered => (waits k within entered).jobs)
      (ground_leader (waits i inside here).started.ground) fun _ k within => aligned.incomplete waits within
  | withheld withholds silent waits =>
    refine starts (aligned.calm silent fun k within entered => (waits k within entered).rounds) ?_
      fun proposes => absurd proposes withholds
    cases waits i inside here with
    | before started _ _ _ => exact ground_leader started.ground
    | after ready => simp [ready.pending] at found
  | running R common good _ active leads accounting =>
    subst common
    refine Or.inr ⟨R.common.view,.of_copies several aligned unrepeated leads ?_ ((views _).trans leads) ?_⟩
    · intro k within
      exact (views k).trans_le (aligned.latest within)
    · intro j follower k
      exact copies_moved ((active i inside here).relays mode found case _) follower k

theorem Unrepeated.callback (several : 2 ≤ z.size) (aligned : Aligned p z s C)
    (unrepeated : Unrepeated z s) (inside : i < z.size) (lockStep : LockStep z.cluster s (.callback i)) {n' : SyncHS}
    {acks : List ExtBlock} {acked : List (Nat × ExtBlock)}
    (case : CallbackStep p (z.config i) { (s.nodes i).state with timers := (s.nodes i).state.timers - 1 } n' ⟨[],[],acks⟩) :
    Unrepeated z (s.moved z.cluster i ⟨n',(s.nodes i).pending,acked⟩ []) := by
  have calmly (calm : Calm z s) : Unrepeated z (s.moved z.cluster i ⟨n',(s.nodes i).pending,acked⟩ []) :=
    Or.inl (calm.moved (calm.rounds i inside))
  cases aligned.phase with
  | waiting _ silent waits =>
    exact calmly (aligned.calm silent fun k within entered => (waits k within entered).jobs)
  | withheld _ silent waits =>
    exact calmly (aligned.calm silent fun k within entered => (waits k within entered).rounds)
  | running R common good _ active leads accounting =>
    subst common
    by_cases here : (s.nodes i).state.view = R.common.view
    · -- the first node to leave the view: everything in it has been handled
      have quiet (k : Nat) (within : k < z.size) : (s.nodes k).pending = [] := by
        rcases lockStep.1 k ((Cluster.mem_honestNodes _ _).mpr (Setting.honest.mpr within)) with ahead | ⟨_,finished⟩
        · have latest := aligned.latest within
          omega
        · exact finished.2
      have silent : s.net = [] := by
        rw [List.eq_nil_iff_forall_not_mem]
        intro x member
        have later := lockStep.2 x member R.common.view (accounting.packets x member).tag
        omega
      exact calmly ⟨silent,fun k within => by simp [quiet k within]⟩
    · have ready := aligned.ready i inside here
      have other : R.common.leader ≠ i := by
        rintro rfl
        exact here leads
      have entering : n'.view ≤ R.common.view ∧ n'.fpropMap = (s.nodes i).state.fpropMap := by
        have view := ready.view
        cases case with
        | kept _ _ => exact ⟨Nat.le_of_succ_le view.le,rfl⟩
        | advanced _ _ _ _ => exact ⟨view.le,rfl⟩
      refine Or.inr ⟨R.common.view,.of_copies several aligned unrepeated leads ?_ ?_ ?_⟩
      · intro k within
        by_cases own : k = i
        · subst own
          rw [moved_self]
          exact entering.1
        · rw [moved_other _ _ _ _ _ own]
          exact aligned.latest within
      · rw [moved_other _ _ _ _ _ other]
        exact leads
      · intro j follower k
        refine copies_moved ?_ follower k
        have quiet : Relays R.common.view R.common.leader i (s.nodes i) ⟨n',(s.nodes i).pending ++ [],acked⟩ [] fun _ => 0 :=
          .quiet (List.Sublist.refl _) entering.2 (by simp) (by simp)
        rwa [List.append_nil] at quiet

theorem Unrepeated.step (several : 2 ≤ z.size)
    (mode : z.timerMode = .plain ∨ z.timerMode = .withhold) (aligned : Aligned p z s C) (unrepeated : Unrepeated z s)
    {e : SystemEvent} (enabled : s.enabled z.cluster p e) (lockStep : LockStep z.cluster s e)
    (stepped : s.step z.cluster p e = some t) : Unrepeated z t := by
  cases System.step_cases stepped with
  | commanded i cmd node sends case =>
    cases case with
    | commanded _ _ _ case => exact unrepeated.command case (Setting.honest.mp enabled)
  | delivered k x node sends found case =>
    cases case with
    | received _ => exact unrepeated.deliver several aligned found lockStep
  | worked i index order node sends case =>
    cases case with
    | worked _ _ _ _ _ _ found case => exact unrepeated.work several mode aligned (Setting.honest.mp enabled.1) found case
  | calledBack i node sends case =>
    cases case with
    | calledBack _ _ case =>
      -- the log is not part of the account
      rcases unrepeated.callback several aligned (Setting.honest.mp enabled.1) lockStep case with calm | ⟨view,single⟩
      · exact Or.inl ⟨calm.silent,calm.rounds⟩
      · exact Or.inr ⟨view,single.reached,single.latest,single.once⟩
  | connected i => exact lockStep.elim
  | injected dest m => exact absurd enabled.1 (by simp [Setting.cluster,Cluster.complete])

end Unrepeating

end ReputationSMR
