import ReputationSMR.JobCases

/-! Several nodes and the messages between them. Nodes that follow the code react to
client commands, deliveries, their own pending work and their timers; the others are
Byzantine and have no state here: what they send is injected. A message of a node that
follows the code is tagged with the view it was sent in. -/
namespace ReputationSMR

open Wire FiniteMap

structure Cluster where
  size : Nat
  config : Nat → NodeConfig
  byzantine : Finset Nat

def Cluster.honest (c : Cluster) (i : Nat) : Prop := i < c.size ∧ i ∉ c.byzantine

instance (c : Cluster) (i : Nat) : Decidable (c.honest i) := inferInstanceAs (Decidable (_ ∧ _))

def Cluster.honestNodes (c : Cluster) : List Nat := (List.range c.size).filter fun i => c.honest i

theorem Cluster.mem_honestNodes (c : Cluster) (i : Nat) : i ∈ c.honestNodes ↔ c.honest i := by
  simp only [honestNodes, List.mem_filter, List.mem_range, decide_eq_true_eq]
  exact ⟨fun both => both.2,fun honest => ⟨honest.1,honest⟩⟩

/-- A network in which everyone knows everyone, with some Byzantine nodes. -/
def Cluster.complete (size blockSize : Nat) (startEvidence : Bool) (timerMode : TimerMode)
    (byzantine : Finset Nat) : Cluster :=
  ⟨size,NodeConfig.complete size blockSize startEvidence timerMode,byzantine⟩

/-- A message on its way; without a tag it comes from a Byzantine node. -/
structure Packet where
  dest : Nat
  tag : Option Nat
  msg : SyncHSMsg
  deriving DecidableEq

/-- The state in which a callback left a node, with the view it ended. -/
structure Completed where
  node : Nat
  view : Nat
  state : SyncHS

/-- `log` keeps the state after every callback and `signed` what honest nodes signed. -/
structure System where
  nodes : Nat → Node
  net : List Packet
  log : List Completed
  signed : List (Nat × Bytes)

inductive SystemEvent where
  | connect (i : Nat)
  | command (i : Nat) (cmd : Bytes)
  | deliver (k : Nat)
  | work (i index : Nat) (order : List Nat)
  | callback (i : Nat)
  | inject (dest : Nat) (m : SyncHSMsg)

/-! ## Signatures -/

/-- What the sender of a message signs in it. -/
def SyncHSMsg.signedData : SyncHSMsg → List Bytes
  | .prop x => [marshalHeader x.getHeader]
  | .vote v => [marshalVoteData v.data]
  | .eqevidence e => (e.evidence.bind Evidence.evidenceData).toList.map EvidenceData.marshal
  | .mpevidence e => (e.evidence.bind Evidence.evidenceData).toList.map EvidenceData.marshal
  | .mvevidence e => (e.evidence.bind Evidence.evidenceData).toList.map EvidenceData.marshal
  | .ack _ | .tx _ | .unset => []

def Proposal.signatures (prop : Proposal) : List (Bytes × Bytes) :=
  [(marshalHeader prop.getHeader,prop.miningProof),(marshalHeader prop.getHeader,prop.forwardSig)]

def ProtoVote.signatures (v : ProtoVote) : List (Bytes × Bytes) := [(marshalVoteData v.data,v.getSignature)]

def Evidence.signatures (e : Evidence) : List (Bytes × Bytes) :=
  e.evidenceData.toList.map fun data => (data.marshal,e.orSignature)

/-- Every signature in a message, with the data it is checked against. -/
def SyncHSMsg.signatures : SyncHSMsg → List (Bytes × Bytes)
  | .prop x => x.signatures
  | .vote v => v.signatures
  | .eqevidence e => e.evidence.toList.flatMap Evidence.signatures ++
      e.e1.toList.flatMap Proposal.signatures ++ e.e2.toList.flatMap Proposal.signatures
  | .mpevidence e => e.evidence.toList.flatMap Evidence.signatures ++ e.e.toList.flatMap Proposal.signatures
  | .mvevidence e => e.evidence.toList.flatMap Evidence.signatures ++ e.e.toList.flatMap ProtoVote.signatures
  | .ack _ | .tx _ | .unset => []

/-- No signature of an honest node that it has not made. -/
def Unforged (c : Cluster) (p : Platform) (s : System) (m : SyncHSMsg) : Prop :=
  ∀ entry ∈ m.signatures, ∀ j ∈ c.honestNodes, p.verify j entry.1 entry.2 = some true →
    (j,entry.1) ∈ s.signed

instance (c : Cluster) (p : Platform) (s : System) (m : SyncHSMsg) : Decidable (Unforged c p s m) :=
  inferInstanceAs (Decidable (∀ entry ∈ m.signatures, _))

/-! ## Steps -/

def Outgoing.messages : Outgoing → List SyncHSMsg
  | .broadcast m => [m]
  | .equivocating m1 m2 => [m1,m2]

/-- The packets for the honest peers of a node. -/
def Cluster.packets (c : Cluster) (i view : Nat) (sends : List Outgoing) : List Packet :=
  sends.flatMap fun o => (c.honestNodes.filter fun j => j ∈ (c.config i).pMap).map fun j =>
    ⟨j,some view,o.to j⟩

def System.act (c : Cluster) (p : Platform) (s : System) (i : Nat) (e : NodeEvent) : Option System :=
  ((s.nodes i).step p (c.config i) e).map fun (node,sends) =>
    { s with
      nodes := Function.update s.nodes i node
      net := s.net ++ c.packets i (s.nodes i).state.view sends
      signed := s.signed ++ (sends.flatMap Outgoing.messages).flatMap fun m =>
        m.signedData.map fun data => (i,data) }

namespace System

def enabled (c : Cluster) (p : Platform) (s : System) : SystemEvent → Prop
  | .connect i => c.honest i
  | .command i _ => c.honest i
  | .deliver k => k < s.net.length
  | .work i index order => c.honest i ∧ (s.nodes i).enabled (c.config i) (.work index order)
  | .callback i => c.honest i ∧ (s.nodes i).enabled (c.config i) .callback
  | .inject dest m => c.byzantine.Nonempty ∧ c.honest dest ∧ Unforged c p s m

instance (c : Cluster) (p : Platform) (s : System) (e : SystemEvent) : Decidable (s.enabled c p e) :=
  match e with
  | .connect i => inferInstanceAs (Decidable (c.honest i))
  | .command i _ => inferInstanceAs (Decidable (c.honest i))
  | .deliver k => inferInstanceAs (Decidable (k < s.net.length))
  | .work _ _ _ => inferInstanceAs (Decidable (_ ∧ _))
  | .callback _ => inferInstanceAs (Decidable (_ ∧ _))
  | .inject _ _ => inferInstanceAs (Decidable (_ ∧ _))

def step (c : Cluster) (p : Platform) (s : System) : SystemEvent → Option System
  | .connect i => s.act c p i .connect
  | .command i cmd => s.act c p i (.command cmd)
  | .deliver k =>
    match s.net[k]? with
    | none => none
    | some packet => { s with net := s.net.eraseIdx k }.act c p packet.dest (.receive packet.msg)
  | .work i index order => s.act c p i (.work index order)
  | .callback i => (s.act c p i .callback).map fun t =>
      { t with log := t.log ++ [⟨i,(s.nodes i).state.view,(t.nodes i).state⟩] }
  | .inject dest m => some { s with net := s.net ++ [⟨dest,none,m⟩] }

end System

def System.moved (c : Cluster) (s : System) (i : Nat) (node : Node) (sends : List Outgoing) : System :=
  { s with
    nodes := Function.update s.nodes i node
    net := s.net ++ c.packets i (s.nodes i).state.view sends
    signed := s.signed ++ (sends.flatMap Outgoing.messages).flatMap fun m =>
      m.signedData.map fun data => (i,data) }

theorem System.act_eq {c : Cluster} {p : Platform} {s : System} {i : Nat} {e : NodeEvent} {node : Node}
    {sends : List Outgoing} (step : (s.nodes i).step p (c.config i) e = some (node,sends)) :
    s.act c p i e = some (s.moved c i node sends) := by
  rw [System.act, step]
  rfl

section Moved

variable (c : Cluster) (s : System) (i : Nat) (node : Node) (sends : List Outgoing)

@[simp] theorem moved_self : (s.moved c i node sends).nodes i = node := Function.update_self _ _ _

theorem moved_other {j : Nat} (other : j ≠ i) : (s.moved c i node sends).nodes j = s.nodes j :=
  Function.update_of_ne other _ _

@[simp] theorem moved_quiet : (s.moved c i node []).net = s.net := List.append_nil _

end Moved

/-- Everything that can happen: a node moves, or a Byzantine node sends. -/
inductive SystemCase (c : Cluster) (p : Platform) (s : System) : SystemEvent → System → Prop where
  | connected (i : Nat) (node : Node) (sends : List Outgoing) :
      NodeCase p (c.config i) (s.nodes i) .connect node sends →
      SystemCase c p s (.connect i) (s.moved c i node sends)
  | commanded (i : Nat) (cmd : Bytes) (node : Node) (sends : List Outgoing) :
      NodeCase p (c.config i) (s.nodes i) (.command cmd) node sends →
      SystemCase c p s (.command i cmd) (s.moved c i node sends)
  | delivered (k : Nat) (x : Packet) (node : Node) (sends : List Outgoing) : s.net[k]? = some x →
      NodeCase p (c.config x.dest) (s.nodes x.dest) (.receive x.msg) node sends →
      SystemCase c p s (.deliver k) ({ s with net := s.net.eraseIdx k }.moved c x.dest node sends)
  | worked (i index : Nat) (order : List Nat) (node : Node) (sends : List Outgoing) :
      NodeCase p (c.config i) (s.nodes i) (.work index order) node sends →
      SystemCase c p s (.work i index order) (s.moved c i node sends)
  | calledBack (i : Nat) (node : Node) (sends : List Outgoing) :
      NodeCase p (c.config i) (s.nodes i) .callback node sends →
      SystemCase c p s (.callback i) { s.moved c i node sends with
        log := s.log ++ [⟨i,(s.nodes i).state.view,node.state⟩] }
  | injected (dest : Nat) (m : SyncHSMsg) :
      SystemCase c p s (.inject dest m) { s with net := s.net ++ [⟨dest,none,m⟩] }

theorem System.act_step {c : Cluster} {p : Platform} {s t : System} {i : Nat} {e : NodeEvent}
    (acted : s.act c p i e = some t) : ∃ node sends, (s.nodes i).step p (c.config i) e = some (node,sends) ∧
      t = s.moved c i node sends := by
  obtain ⟨⟨node,sends⟩,stepped,rfl⟩ := Option.map_eq_some_iff.mp acted
  exact ⟨node,sends,stepped,rfl⟩

theorem System.act_cases {c : Cluster} {p : Platform} {s t : System} {i : Nat} {e : NodeEvent}
    (acted : s.act c p i e = some t) : ∃ node sends, NodeCase p (c.config i) (s.nodes i) e node sends ∧
      t = s.moved c i node sends := by
  obtain ⟨⟨node,sends⟩,stepped,rfl⟩ := Option.map_eq_some_iff.mp acted
  exact ⟨node,sends,node_cases stepped,rfl⟩

theorem System.step_cases {c : Cluster} {p : Platform} {s t : System} {e : SystemEvent}
    (stepped : s.step c p e = some t) : SystemCase c p s e t := by
  cases e with
  | connect i =>
    obtain ⟨node,sends,case,rfl⟩ := System.act_cases stepped
    exact .connected i node sends case
  | command i cmd =>
    obtain ⟨node,sends,case,rfl⟩ := System.act_cases stepped
    exact .commanded i cmd node sends case
  | deliver k =>
    simp only [System.step] at stepped
    split at stepped
    next => contradiction
    next x found =>
      obtain ⟨node,sends,case,rfl⟩ := System.act_cases stepped
      exact .delivered k x node sends found case
  | work i index order =>
    obtain ⟨node,sends,case,rfl⟩ := System.act_cases stepped
    exact .worked i index order node sends case
  | callback i =>
    obtain ⟨t,acted,rfl⟩ := Option.map_eq_some_iff.mp stepped
    obtain ⟨node,sends,case,rfl⟩ := System.act_cases acted
    simp only [moved_self]
    exact .calledBack i node sends case
  | inject dest m =>
    obtain rfl := Option.some.inj stepped
    exact .injected dest m

/-- Node `i` takes an event of its own; a message it receives was in flight. -/
structure Moves (c : Cluster) (p : Platform) (s : System) (e : SystemEvent) (t : System) (i : Nat)
    (event : NodeEvent) (sends : List Outgoing) : Prop where
  case : NodeCase p (c.config i) (s.nodes i) event (t.nodes i) sends
  other : ∀ j, j ≠ i → t.nodes j = s.nodes j
  net : ∀ x ∈ t.net, x ∈ s.net ∨ x ∈ c.packets i (s.nodes i).state.view sends
  signed : t.signed = s.signed ++ (sends.flatMap Outgoing.messages).flatMap fun m =>
    m.signedData.map fun data => (i,data)
  connects : event = .connect → e = .connect i
  commands : ∀ cmd, event = .command cmd → e = .command i cmd
  receives : ∀ m, event = .receive m → ∃ x ∈ s.net, x.msg = m
  works : ∀ index order, event = .work index order → e = .work i index order
  callback : event = .callback → e = .callback i

theorem SystemCase.moves {c : Cluster} {p : Platform} {s t : System} {e : SystemEvent}
    (case : SystemCase c p s e t) :
    (∃ dest m, e = .inject dest m ∧ t = { s with net := s.net ++ [⟨dest,none,m⟩] }) ∨
      ∃ i event sends, Moves c p s e t i event sends := by
  have net (s : System) (i : Nat) (sends : List Outgoing) (x : Packet)
      (member : x ∈ s.net ++ c.packets i (s.nodes i).state.view sends) :
      x ∈ s.net ∨ x ∈ c.packets i (s.nodes i).state.view sends := List.mem_append.mp member
  cases case with
  | connected i node sends case =>
    exact Or.inr ⟨i,.connect,sends,by rwa [moved_self],fun j => moved_other c s i node sends,net s i sends,rfl,
      fun _ => rfl,nofun,nofun,nofun,nofun⟩
  | commanded i cmd node sends case =>
    refine Or.inr ⟨i,.command cmd,sends,by rwa [moved_self],fun j => moved_other c s i node sends,net s i sends,rfl,
      nofun,?_,nofun,nofun,nofun⟩
    intro cmd' same
    rw [NodeEvent.command.inj same]
  | delivered k x node sends found case =>
    refine Or.inr ⟨x.dest,.receive x.msg,sends,by rwa [moved_self],
      fun j => moved_other c { s with net := s.net.eraseIdx k } x.dest node sends,?_,rfl,nofun,nofun,?_,nofun,nofun⟩
    · intro y member
      exact (net _ _ _ y member).imp_left List.mem_of_mem_eraseIdx
    · intro m same
      exact ⟨x,List.mem_of_getElem? found,NodeEvent.receive.inj same⟩
  | worked i index order node sends case =>
    refine Or.inr ⟨i,.work index order,sends,by rwa [moved_self],fun j => moved_other c s i node sends,net s i sends,rfl,
      nofun,nofun,nofun,?_,nofun⟩
    intro index' order' same
    obtain ⟨rfl,rfl⟩ := NodeEvent.work.inj same
    rfl
  | calledBack i node sends case =>
    refine Or.inr ⟨i,.callback,sends,?_,fun j => moved_other c s i node sends,net s i sends,rfl,nofun,nofun,nofun,
      nofun,fun _ => rfl⟩
    change NodeCase p (c.config i) (s.nodes i) .callback ((s.moved c i node sends).nodes i) sends
    rwa [moved_self]
  | injected dest m => exact Or.inl ⟨dest,m,rfl,rfl⟩

theorem Moves.each {c : Cluster} {p : Platform} {s t : System} {e : SystemEvent} {i : Nat} {event : NodeEvent}
    {sends : List Outgoing} {P : Nat → Node → Prop} (moves : Moves c p s e t i event sends)
    (kept : ∀ k ∈ c.honestNodes, P k (s.nodes k)) (acts : i ∈ c.honestNodes → P i (t.nodes i)) :
    ∀ k ∈ c.honestNodes, P k (t.nodes k) := by
  intro k honest
  by_cases same : k = i
  · subst same
    exact acts honest
  · rw [moves.other k same]
    exact kept k honest

theorem Moves.honest {c : Cluster} {p : Platform} {s t : System} {e : SystemEvent} {i : Nat} {event : NodeEvent}
    {sends : List Outgoing} (moves : Moves c p s e t i event sends) (admitted : s.enabled c p e) :
    i ∈ c.honestNodes ∨ ∃ m, event = .receive m := by
  cases event with
  | connect =>
    rw [moves.connects rfl] at admitted
    exact Or.inl ((c.mem_honestNodes i).mpr admitted)
  | command cmd =>
    rw [moves.commands cmd rfl] at admitted
    exact Or.inl ((c.mem_honestNodes i).mpr admitted)
  | receive m => exact Or.inr ⟨m,rfl⟩
  | work index order =>
    rw [moves.works index order rfl] at admitted
    exact Or.inl ((c.mem_honestNodes i).mpr admitted.1)
  | callback =>
    rw [moves.callback rfl] at admitted
    exact Or.inl ((c.mem_honestNodes i).mpr admitted.1)

def systemMachine (c : Cluster) (p : Platform) : Guarded.Machine System SystemEvent :=
  ⟨System.enabled c p,System.step c p⟩

instance (c : Cluster) (p : Platform) (s : System) (e : SystemEvent) :
    Decidable ((systemMachine c p).enabled s e) :=
  inferInstanceAs (Decidable (s.enabled c p e))

/-- Every node has had one client connect; more may follow. -/
def System.start (c : Cluster) : System :=
  ⟨fun i => ⟨clientConnects (c.config i) .init,[],[]⟩,[],[],[]⟩

/-! ## Conditions on jobs -/

/-- The job that an event takes up, with its node. -/
def System.taken (s : System) : SystemEvent → Option (Nat × Job)
  | .work i index _ => (s.nodes i).pending[index]?.map fun job => (i,job)
  | _ => none

def EachJob (F : System → Nat → Job → Prop) (s : System) (e : SystemEvent) : Prop :=
  ∀ entry ∈ s.taken e, F s entry.1 entry.2

instance (F : System → Nat → Job → Prop) [∀ s i job, Decidable (F s i job)] (s : System) (e : SystemEvent) :
    Decidable (EachJob F s e) :=
  inferInstanceAs (Decidable (∀ entry ∈ s.taken e, _))

theorem EachJob.work {F : System → Nat → Job → Prop} {s : System} {i index : Nat} {order : List Nat} {job : Job}
    (each : EachJob F s (.work i index order)) (found : (s.nodes i).pending[index]? = some job) : F s i job :=
  each (i,job) (by simp [System.taken,found])

/-! ## A step seen from one node -/

/-- The event of node `j` that an event of the system is. -/
inductive Acts (s : System) (j : Nat) : SystemEvent → NodeEvent → Prop where
  | connect : Acts s j (.connect j) .connect
  | command (cmd : Bytes) : Acts s j (.command j cmd) (.command cmd)
  | receive (k : Nat) (x : Packet) : s.net[k]? = some x → x.dest = j → Acts s j (.deliver k) (.receive x.msg)
  | work (index : Nat) (order : List Nat) : Acts s j (.work j index order) (.work index order)
  | callback : Acts s j (.callback j) .callback

theorem System.step_at {c : Cluster} {p : Platform} {s t : System} {e : SystemEvent} (stepped : s.step c p e = some t)
    (j : Nat) : t.nodes j = s.nodes j ∨
    ∃ event sends, Acts s j e event ∧ (s.nodes j).step p (c.config j) event = some (t.nodes j,sends) ∧
      ∀ x ∈ c.packets j (s.nodes j).state.view sends, x ∈ t.net := by
  have acts (s : System) {i : Nat} {event : NodeEvent} {t : System} (acted : s.act c p i event = some t) :
      t.nodes j = s.nodes j ∨ i = j ∧ ∃ sends, (s.nodes j).step p (c.config j) event = some (t.nodes j,sends) ∧
        ∀ x ∈ c.packets j (s.nodes j).state.view sends, x ∈ t.net := by
    obtain ⟨node,sends,ran,rfl⟩ := System.act_step acted
    by_cases same : j = i
    · subst same
      rw [moved_self]
      exact Or.inr ⟨rfl,sends,ran,fun x member => List.mem_append_right _ member⟩
    · exact Or.inl (moved_other c s i node sends same)
  cases e with
  | connect i =>
    refine (acts s stepped).imp_right ?_
    rintro ⟨rfl,sends,ran,sent⟩
    exact ⟨_,sends,.connect,ran,sent⟩
  | command i cmd =>
    refine (acts s stepped).imp_right ?_
    rintro ⟨rfl,sends,ran,sent⟩
    exact ⟨_,sends,.command cmd,ran,sent⟩
  | deliver k =>
    simp only [System.step] at stepped
    split at stepped
    next => contradiction
    next x found =>
      refine (acts { s with net := s.net.eraseIdx k } stepped).imp_right ?_
      rintro ⟨rfl,sends,ran,sent⟩
      exact ⟨_,sends,.receive k x found rfl,ran,sent⟩
  | work i index order =>
    refine (acts s stepped).imp_right ?_
    rintro ⟨rfl,sends,ran,sent⟩
    exact ⟨_,sends,.work index order,ran,sent⟩
  | callback i =>
    obtain ⟨t,acted,rfl⟩ := Option.map_eq_some_iff.mp stepped
    refine (acts s acted).imp_right ?_
    rintro ⟨rfl,sends,ran,sent⟩
    exact ⟨_,sends,.callback,ran,sent⟩
  | inject dest m =>
    obtain rfl := Option.some.inj stepped
    exact Or.inl rfl

/-! ## Rounds in lock step -/

/-- The round of the view has been started and everything that arrived is handled. -/
def Node.finished (node : Node) : Prop := 0 < node.state.timers ∧ node.pending = []

instance (node : Node) : Decidable node.finished := inferInstanceAs (Decidable (_ ∧ _))

/-- All clients have connected at the start. The messages of a view are delivered after
every node has ended the previous view and handled before any node ends this one. -/
def LockStep (c : Cluster) (s : System) : SystemEvent → Prop
  | .connect _ => False
  | .deliver k => ∀ packet ∈ s.net[k]?, ∀ view ∈ packet.tag, ∀ j ∈ c.honestNodes,
      view ≤ (s.nodes j).state.view
  | .callback i => (∀ j ∈ c.honestNodes, (s.nodes i).state.view < (s.nodes j).state.view ∨
        (s.nodes j).state.view = (s.nodes i).state.view ∧ (s.nodes j).finished) ∧
      ∀ packet ∈ s.net, ∀ view ∈ packet.tag, (s.nodes i).state.view < view
  | _ => True

instance (c : Cluster) (s : System) (e : SystemEvent) : Decidable (LockStep c s e) :=
  match e with
  | .connect _ => isFalse id
  | .deliver k => inferInstanceAs (Decidable (∀ packet ∈ s.net[k]?, _))
  | .callback _ => inferInstanceAs (Decidable (_ ∧ _))
  | .command _ _ | .work _ _ _ | .inject _ _ => isTrue trivial

end ReputationSMR
