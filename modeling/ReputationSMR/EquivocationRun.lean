import ReputationSMR.Equivocation
import ReputationSMR.RoundSystem

/-! Leader equivocation, seen from the network. Every forward and every piece of evidence
is accounted for, so when nothing is on its way and nothing is pending each node has
read both versions and has recorded the leader. -/
namespace ReputationSMR

open Wire FiniteMap

namespace Equivocation

variable (p : Platform) (z : Setting) (E : Equivocation) (s : System)

/-! ## Accounting -/

/-- The forward of node `j` is on its way to node `k`, or has reached it. -/
def ForwardGot (j k : Nat) : Prop :=
  s.Got ⟨k,some E.common.view,.prop (E.forward p z j)⟩ fun node => E.HasForward p z node j

/-- The proposal is on its way to node `j`, or has been passed on by it. -/
def PropGot (j : Nat) : Prop :=
  s.Got ⟨j,some E.common.view,.prop (E.prop (E.gets j))⟩
    (fun node => .forward (E.prop (E.gets j)) ∈ node.pending) ∨ ∀ k < z.size, E.ForwardGot p z s j k

def EvidenceGot (k : Nat) : Prop :=
  ∃ e, E.IsEvidence p z e ∧ s.Got ⟨k,some E.common.view,.eqevidence e⟩ fun node => E.HasEvidence p z node

structure AllowsPacket (x : Packet) : Prop where
  dest : x.dest < z.size
  tag : x.tag = some E.common.view
  msg : x.msg = .prop (E.prop (E.gets x.dest)) ∧ x.dest ≠ E.common.leader ∨
    (∃ j, E.Follower z j ∧ x.msg = .prop (E.forward p z j)) ∨
    ∃ e, E.IsEvidence p z e ∧ x.msg = .eqevidence e

structure Accounting : Prop where
  announced : ∀ j, E.Follower z j → E.PropGot p z s j
  reported : ∀ i, E.Follower z i → (s.nodes i).state.equivocatingProposalInject = true →
    Reports (s.nodes i) ∨ ∀ k < z.size, E.EvidenceGot p z s k
  packets : ∀ x ∈ s.net, E.AllowsPacket p z x

structure Taken (x : Packet) (node : Node) : Prop where
  prop : x.msg = .prop (E.prop (E.gets x.dest)) → .forward (E.prop (E.gets x.dest)) ∈ node.pending
  forward : ∀ j, j ≠ E.common.leader → x.msg = .prop (E.forward p z j) →
    .proposeChannel (E.forward p z j) ∈ node.pending
  evidence : ∀ e, x.msg = .eqevidence e → .eqEvidenceChannel e ∈ node.pending

variable {p z E s} {t : System} {i j k : Nat} {node : Node} {sends : List Outgoing}

section Passing

variable (delivers : Delivers z E.common.view (E.Taken p z) s t i node sends)
  (moves : E.Moves p z i (s.nodes i) node sends)

include delivers moves

theorem ForwardGot.step (follower : j ≠ E.common.leader) (got : E.ForwardGot p z s j k) :
    E.ForwardGot p z t j k :=
  System.Got.step got delivers (fun taken => Or.inl (taken.forward j follower rfl)) (moves.forwards j)

theorem EvidenceGot.step (got : E.EvidenceGot p z s k) : E.EvidenceGot p z t k := by
  obtain ⟨e,evidence,got⟩ := got
  exact ⟨e,evidence,got.step delivers (fun taken => Or.inl ⟨e,evidence,taken.evidence e rfl⟩) moves.evidence⟩

theorem PropGot.step (follower : j ≠ E.common.leader) (got : E.PropGot p z s j) : E.PropGot p z t j := by
  rcases got with got | passed
  · refine got.progress delivers (fun taken => taken.prop rfl) fun here pending => ?_
    obtain rfl : j = i := here
    exact (moves.forward pending).imp_right fun ⟨own,sent⟩ k inside =>
      .sent delivers sent (Or.inl own) inside
  · exact Or.inr fun k inside => ForwardGot.step delivers moves follower (passed k inside)

theorem Accounting.step (accounting : E.Accounting p z s) (packets : ∀ x ∈ t.net, E.AllowsPacket p z x) :
    E.Accounting p z t := by
  refine ⟨fun j follower => PropGot.step delivers moves follower.2 (accounting.announced j follower),?_,packets⟩
  intro k follower set
  by_cases same : k = i
  · subst same
    rw [delivers.self] at set ⊢
    rcases moves.flagged follower.2 set with before | reports
    · rcases accounting.reported k follower before with reports | got
      · refine (moves.reports reports).imp_right fun ⟨e,evidence,own,sent⟩ m inside => ⟨e,evidence,?_⟩
        exact .sent delivers sent (Or.inl ⟨e,evidence,own⟩) inside
      · exact Or.inr fun m inside => EvidenceGot.step delivers moves (got m inside)
    · exact Or.inl reports
  · rw [delivers.other same] at set ⊢
    exact (accounting.reported k follower set).imp_right fun got m inside =>
      EvidenceGot.step delivers moves (got m inside)

end Passing

theorem Sends.packet {o : Outgoing} (sends : E.Sends p z i o) (inside : i < z.size) (dest : j < z.size) :
    E.AllowsPacket p z ⟨j,some E.common.view,o.to j⟩ := by
  refine ⟨dest,rfl,?_⟩
  rcases sends with ⟨rfl,follower⟩ | ⟨e,evidence,rfl⟩
  · exact Or.inr (Or.inl ⟨i,⟨inside,follower⟩,rfl⟩)
  · exact Or.inr (Or.inr ⟨e,evidence,rfl⟩)

/-! ## Messages that arrive -/

section Arriving

variable {n : SyncHS} (leader : n.leader = E.common.leader)

include leader

theorem protocol_prop (good : E.Good p z) (version : Bool) (cfg : NodeConfig) :
    protocol cfg n (.prop (E.prop version)) = [.forward (E.prop version)] :=
  (if_pos ((good.sender version).trans leader.symm)).trans
    (if_pos ((good.miner version).trans leader.symm))

theorem protocol_forward (follower : j ≠ E.common.leader) (cfg : NodeConfig) :
    protocol cfg n (.prop (E.forward p z j)) = [.proposeChannel (E.forward p z j)] :=
  if_neg (leader ▸ follower)

theorem taken_protocol (good : E.Good p z) (evidence : z.startEvidence = true) (x : Packet) (pending : List Job)
    (acked : List (Nat × ExtBlock)) :
    E.Taken p z x ⟨n,pending ++ protocol (z.config x.dest) n x.msg,acked⟩ := by
  constructor
  · intro msg
    rw [msg, protocol_prop leader good]
    exact List.mem_append_right _ List.mem_cons_self
  · intro j follower msg
    rw [msg, protocol_forward leader follower]
    exact List.mem_append_right _ List.mem_cons_self
  · intro e msg
    rw [msg, protocol, if_pos (show (z.config x.dest).startEvidence = true from evidence)]
    exact List.mem_append_right _ List.mem_cons_self

theorem AllowsPacket.jobs (good : E.Good p z) (evidence : z.startEvidence = true) {x : Packet}
    (allows : E.AllowsPacket p z x) :
    ∀ job ∈ protocol (z.config x.dest) n x.msg, E.Allows p z x.dest job ∧ job ≠ .round := by
  intro job member
  rcases allows.msg with ⟨msg,follower⟩ | ⟨j,follower,msg⟩ | ⟨e,valid,msg⟩
  · rw [msg, protocol_prop leader good] at member
    obtain rfl := List.mem_singleton.mp member
    exact ⟨⟨follower,rfl⟩,by simp⟩
  · rw [msg, protocol_forward leader follower.2] at member
    obtain rfl := List.mem_singleton.mp member
    exact ⟨⟨j,follower,rfl⟩,by simp⟩
  · rw [msg, protocol, if_pos (show (z.config x.dest).startEvidence = true from evidence)] at member
    obtain rfl := List.mem_singleton.mp member
    exact ⟨valid,by simp⟩

end Arriving

/-! ## The end of the view -/

theorem Accounting.flagged (good : E.Good p z) (accounting : E.Accounting p z s) (silent : s.net = [])
    (quiet : ∀ i < z.size, (s.nodes i).pending = []) (watching : E.Watching p z i (s.nodes i))
    (inside : i < z.size) : (s.nodes i).state.equivocatingProposalInject = true := by
  by_contra unflagged
  have counted (j : Nat) (follower : E.Follower z j) :
      j ∈ (row (s.nodes i).state.fpropMap E.common.view).keys := by
    rcases accounting.announced j follower with got | passed
    · have pending := got.there silent
      simp [quiet j follower.1] at pending
    · rcases (passed i inside).there silent with pending | set | there
      · simp [quiet i inside] at pending
      · exact absurd set unflagged
      · exact there
  obtain ⟨first,seen⟩ := watching.seen
  have version (b : Bool) : ∃ k ∈ first, b = E.gets k := by
    obtain ⟨j,follower,rfl⟩ := good.both b
    exact (seen.senders j (counted j follower)).2
  obtain ⟨k,mem,same⟩ := version true
  obtain ⟨k',mem',same'⟩ := version false
  obtain rfl := Option.mem_unique mem mem'
  rw [← same] at same'
  contradiction

theorem Accounting.done (good : E.Good p z) (accounting : E.Accounting p z s) (silent : s.net = [])
    (finished : ∀ i < z.size, (s.nodes i).finished) (watching : ∀ i < z.size, E.Watching p z i (s.nodes i))
    (inside : i < z.size) : E.Done p z (s.nodes i) := by
  have quiet (i : Nat) (inside : i < z.size) : (s.nodes i).pending = [] := (finished i inside).2
  have flagged (i : Nat) (inside : i < z.size) :=
    accounting.flagged good silent quiet (watching i inside) inside
  have recorded : (s.nodes i).state.common = E.common.equivocated p := by
    -- any follower has reported what it saw
    obtain ⟨j,follower,_⟩ := good.both true
    rcases accounting.reported j follower (flagged j follower.1) with ⟨x,y,pending⟩ | got
    · simp [quiet j follower.1] at pending
    · obtain ⟨e,_,got⟩ := got i inside
      rcases got.there silent with ⟨_,_,pending⟩ | recorded
      · simp [quiet i inside] at pending
      · exact recorded
  have tokens := (watching i inside).clocked.tokens
  have running : 0 < (s.nodes i).state.clock.timers := (finished i inside).1
  refine ⟨recorded,flagged i inside,(watching i inside).unwithheld,(watching i inside).clocked,?_,quiet i inside⟩
  change (s.nodes i).state.clock.timers = 1
  omega

/-! ## Runs -/

variable (p z E) in
/-- The state after a callback that ended the view: one empty block, the leader recorded,
and the same reputations, view and leader for everybody. -/
structure Resolved (n : SyncHS) : Prop where
  chain : n.bc = E.common.bc.extend p (E.common.emptyBlock p)
  block : n.bc.blocksByHeight.lookup n.bc.head = some (E.common.emptyBlock p)
  recorded : n.equiproposalMap.lookup E.common.view = some ((∅ : Map Nat Nat).insert E.common.leader 1)
  unvoted : n.voteMap = E.common.voteMap
  reputations : n.reputationMap.lookup (E.common.view + 1) = some ((E.common.equivocated p).newRow p z.size)
  view : n.view = E.common.view + 1
  leader : n.leader = (E.common.leader + 1) % z.size
  unflagged : n.equivocatingProposalInject = false

theorem resolved_of_common {n : SyncHS} (good : E.Good p z)
    (common : n.common = (E.common.equivocated p).advance p z.size)
    (unflagged : n.equivocatingProposalInject = false) : E.Resolved p z n := by
  have bc : n.bc = E.common.bc.extend p (E.common.emptyBlock p) := congrArg Common.bc common
  have records : n.equiproposalMap = SyncHS.recordLeader E.common.equiproposalMap E.common.view E.common.leader :=
    congrArg Common.equiproposalMap common
  have reputations : n.reputationMap = ((E.common.equivocated p).advance p z.size).reputationMap :=
    congrArg Common.reputationMap common
  refine ⟨bc,?_,?_,congrArg Common.voteMap common,?_,congrArg Common.view common,congrArg Common.leader common,
    unflagged⟩
  · rw [bc, extend_top Common.emptyBlock_height]
  · have absent : ¬at2 E.common.equiproposalMap E.common.view E.common.leader = some 1 := by
      rw [at2, good.unrecorded]
      simp
    rw [records, SyncHS.recordLeader, if_neg absent, lookup_insert, if_pos rfl]
  · rw [reputations]
    exact (lookup_insert _ _ _ _).trans (if_pos rfl)

variable (p z E) in
/-- The view before the first callback, and from then on. -/
inductive Progress (s : System) : Prop where
  | watching : (∀ i < z.size, E.Watching p z i (s.nodes i)) → E.Accounting p z s → s.log = [] → Progress s
  | closing : (∀ i < z.size, (s.nodes i).state.view = E.common.view → E.Done p z (s.nodes i)) → s.net = [] →
      (∀ e ∈ s.log, E.Resolved p z e.state) → Progress s

theorem Progress.moved (watching : ∀ j < z.size, E.Watching p z j (s.nodes j)) (accounting : E.Accounting p z s)
    (log : s.log = []) (inside : i < z.size) (after : E.Watching p z i node)
    (moves : E.Moves p z i (s.nodes i) node sends) : E.Progress p z (s.moved z.cluster i node sends) := by
  have here := (watching i inside).view
  refine .watching ?_ (accounting.step (delivers_moved here) moves ?_) log
  · intro j within
    by_cases same : j = i
    · subst same
      rw [moved_self]
      exact after
    · rw [moved_other _ _ _ _ _ same]
      exact watching j within
  · intro x member
    rcases List.mem_append.mp member with old | new
    · exact accounting.packets x old
    · obtain ⟨o,sent,j,dest,_,rfl⟩ := Setting.mem_packets.mp new
      rw [here]
      exact (moves.sends o sent).packet inside dest

theorem Progress.closed (done : ∀ j < z.size, (s.nodes j).state.view = E.common.view → E.Done p z (s.nodes j))
    (nodes : t.nodes = Function.update s.nodes i node)
    (after : node.state.view = E.common.view → E.Done p z node) (silent : t.net = [])
    (resolved : ∀ e ∈ t.log, E.Resolved p z e.state) : E.Progress p z t := by
  refine .closing ?_ silent resolved
  intro j within here
  by_cases same : j = i
  · subst same
    rw [nodes, Function.update_self] at here ⊢
    exact after here
  · rw [nodes, Function.update_of_ne same] at here ⊢
    exact done j within here

theorem Progress.leaves (good : E.Good p z) (inside : i < z.size)
    (done : ∀ j < z.size, (s.nodes j).state.view = E.common.view → E.Done p z (s.nodes j))
    (here : (s.nodes i).state.view = E.common.view) (silent : s.net = [])
    (resolved : ∀ e ∈ s.log, E.Resolved p z e.state) :
    ∃ t, s.step z.cluster p (.callback i) = some t ∧ E.Progress p z t := by
  obtain ⟨node',ran,common,unflagged⟩ := (done i inside here).callback inside
  have ended := resolved_of_common good common unflagged
  refine ⟨_,System.step_callback ran,.closed done rfl ?_ ((moved_quiet z.cluster s i node').trans silent) ?_⟩
  · intro stays
    have left := ended.view
    omega
  · intro e logged
    rcases List.mem_append.mp logged with old | new
    · exact resolved e old
    · obtain rfl := List.mem_singleton.mp new
      exact ended

theorem Progress.arrives (good : E.Good p z) (evidence : z.startEvidence = true)
    (watching : ∀ j < z.size, E.Watching p z j (s.nodes j)) (accounting : E.Accounting p z s)
    (log : s.log = []) {x : Packet} (found : s.net[k]? = some x) :
    ∃ t, s.step z.cluster p (.deliver k) = some t ∧ E.Progress p z t := by
  have allows := accounting.packets x (List.mem_of_getElem? found)
  have before := watching x.dest allows.dest
  have jobs := allows.jobs before.leader good evidence
  have after := before.receive (fun job there => (jobs job there).1) fun there => (jobs _ there).2 rfl
  let node : Node := ⟨(s.nodes x.dest).state,(s.nodes x.dest).pending ++
    protocol (z.config x.dest) (s.nodes x.dest).state x.msg,(s.nodes x.dest).acked⟩
  let t := { s with net := s.net.eraseIdx k }.moved z.cluster x.dest node []
  have delivers : Delivers z E.common.view (E.Taken p z) s t x.dest node [] :=
    delivers_received found (taken_protocol before.leader good evidence x _ _)
  refine ⟨t,?_,.watching ?_ (accounting.step delivers (.of_grow rfl ?_) ?_) log⟩
  · simp only [System.step, found]
    exact System.act_eq rfl
  · intro j within
    by_cases same : j = x.dest
    · subst same
      rw [delivers.self]
      exact after
    · rw [delivers.other same]
      exact watching j within
  · exact fun job member => List.mem_append_left _ member
  · intro y there
    rw [show t.net = s.net.eraseIdx k from moved_quiet _ _ _ _] at there
    exact accounting.packets y (List.mem_of_mem_eraseIdx there)

end Equivocation

def InView (view : Nat) (s : System) : SystemEvent → Prop
  | .command i _ | .work i _ _ | .callback i | .connect i => (s.nodes i).state.view = view
  | .deliver k => ∀ x ∈ s.net[k]?, (s.nodes x.dest).state.view = view
  | .inject _ _ => True

instance (view : Nat) (s : System) (e : SystemEvent) : Decidable (InView view s e) :=
  match e with
  | .command i _ | .work i _ _ | .callback i | .connect i => inferInstanceAs (Decidable ((s.nodes i).state.view = view))
  | .deliver k => inferInstanceAs (Decidable (∀ x ∈ s.net[k]?, _))
  | .inject _ _ => isTrue trivial

namespace Equivocation

variable {p : Platform} {z : Setting} {E : Equivocation} {s : System}

theorem Progress.step (signed : ∀ i data, p.verify i data (p.sign i data) = some true) (good : E.Good p z)
    (evidence : z.startEvidence = true) (mode : z.timerMode = .plain ∨ z.timerMode = .equivocation)
    (progress : E.Progress p z s) {e : SystemEvent} (enabled : s.enabled z.cluster p e)
    (lockStep : LockStep z.cluster s e) (inView : InView E.common.view s e) :
    ∃ t, s.step z.cluster p e = some t ∧ E.Progress p z t := by
  cases e with
  | command i cmd =>
    have inside := Setting.honest.mp enabled
    cases progress with
    | watching watching accounting log =>
      obtain ⟨node',step,after,moves⟩ := (watching i inside).command cmd
      exact ⟨_,System.act_eq step,.moved watching accounting log inside after moves⟩
    | closing done silent resolved =>
      obtain ⟨node',step,after⟩ := (done i inside inView).command cmd
      exact ⟨_,System.act_eq step,
        .closed done rfl (fun _ => after) ((moved_quiet _ _ _ _).trans silent) resolved⟩
  | deliver k =>
    cases progress with
    | watching watching accounting log =>
      exact Progress.arrives good evidence watching accounting log (List.getElem?_eq_getElem enabled)
    | closing done silent resolved =>
      have inNet : k < s.net.length := enabled
      simp [silent] at inNet
  | work i index order =>
    obtain ⟨honest,pending⟩ := enabled
    have inside := Setting.honest.mp honest
    cases found : (s.nodes i).pending[index]? with
    | none => simp [Node.enabled,found] at pending
    | some J =>
      cases progress with
      | watching watching accounting log =>
        obtain ⟨node',sends,step,after,moves⟩ := (watching i inside).works signed good mode inside found
        exact ⟨_,System.act_eq step,.moved watching accounting log inside after moves⟩
      | closing done silent resolved => simp [(done i inside inView).pending] at found
  | callback i =>
    have inside := Setting.honest.mp enabled.1
    cases progress with
    | watching watching accounting log =>
      have finished (j : Nat) (within : j < z.size) : (s.nodes j).finished := by
        have others := lockStep.1 j ((Cluster.mem_honestNodes _ _).mpr (Setting.honest.mpr within))
        rw [(watching i inside).view, (watching j within).view] at others
        exact (others.resolve_left (lt_irrefl _)).2
      have silent : s.net = [] := by
        refine List.eq_nil_iff_forall_not_mem.mpr fun x member => ?_
        have later := lockStep.2 x member _ (accounting.packets x member).tag
        rw [(watching i inside).view] at later
        exact lt_irrefl _ later
      exact Progress.leaves good inside (fun j within _ => accounting.done good silent finished watching within) inView
        silent (by simp [log])
    | closing done silent resolved => exact Progress.leaves good inside done inView silent resolved
  | connect i => exact lockStep.elim
  | inject dest m => exact absurd enabled.1 (by simp [Setting.cluster,Cluster.complete])

variable (p z E s) in
/-- The state in which the leader has sent its two versions: all nodes agree on the chain,
its certified head, the view, the leader and the transcripts, accept both versions as
far as each goes, and have done nothing in the view. -/
structure Starts : Prop where
  common : ∀ i < z.size, (s.nodes i).state.common = E.common
  certified : ∀ i < z.size, ∃ cert, (s.nodes i).state.certMap.lookup E.common.bc.head = some cert ∧
    E.common.bc.hashAt p E.common.bc.head = some (cert.getBlockInfo p).1
  accepts : ∀ i < z.size, ∀ version, checkProposal p (z.config i) (s.nodes i).state (E.ext version) = some true
  unflagged : ∀ i < z.size, (s.nodes i).state.equivocatingProposalInject = false ∧
    (s.nodes i).state.withholdingProposalInject = false
  unread : ∀ i < z.size, (s.nodes i).state.fpropMap.lookup E.common.view = none ∧
    (s.nodes i).state.proposalByviewMap.lookup E.common.view = none
  clocked : ∀ i < z.size, Clocked z (s.nodes i).state.clock (s.nodes i).pending
  quiet : ∀ i < z.size, (s.nodes i).pending = []
  led : (s.nodes E.common.leader).state.timers = 1
  net : ∀ x, x ∈ s.net ↔ ∃ i, E.Follower z i ∧ x = ⟨i,some E.common.view,.prop (E.prop (E.gets i))⟩
  log : s.log = []

theorem Starts.progress (starts : E.Starts p z s) : E.Progress p z s := by
  refine .watching ?_ ⟨?_,?_,?_⟩ starts.log
  · intro i inside
    obtain ⟨noForward,noProposal⟩ := starts.unread i inside
    refine ⟨Or.inl (starts.common i inside),fun _ => starts.certified i inside,starts.accepts i inside,
      (starts.unflagged i inside).2,⟨none,noProposal,?_⟩,starts.clocked i inside,?_,?_⟩
    · rw [Round.fresh_row noForward]
      simp
    · rintro rfl
      exact starts.led
    · simp [starts.quiet i inside]
  · exact fun j follower => Or.inl (Or.inl ((starts.net _).mpr ⟨j,follower,rfl⟩))
  · intro i follower set
    rw [(starts.unflagged i follower.1).1] at set
    contradiction
  · intro x member
    obtain ⟨i,⟨inside,follower⟩,rfl⟩ := (starts.net x).mp member
    exact ⟨inside,rfl,Or.inl ⟨rfl,follower⟩⟩

/-- An equivocating leader is always detected: in every order of deliveries and handler
iterations no node appends or votes for either version, no handler blocks or panics, and
every callback that ends the view leaves the same state. -/
theorem equivocation_is_resolved (signed : ∀ i data, p.verify i data (p.sign i data) = some true)
    (good : E.Good p z) (evidence : z.startEvidence = true)
    (mode : z.timerMode = .plain ∨ z.timerMode = .equivocation) {start : System} (starts : E.Starts p z start)
    {trace : List SystemEvent} (run : ((systemMachine z.cluster p).restrict fun s e =>
      LockStep z.cluster s e ∧ InView E.common.view s e).Run start trace s) :
    (∀ e ∈ s.log, E.Resolved p z e.state) ∧
    (∀ i < z.size, (s.nodes i).state.view = E.common.view →
      ((s.nodes i).state.common = E.common ∨ (s.nodes i).state.common = E.common.equivocated p) ∧
      ∀ job ∈ (s.nodes i).pending, takes (z.config i) (s.nodes i).state job = true ∧
        ∀ ep, job ≠ .vote ep) ∧
    (∀ x ∈ s.net, ∀ v, x.msg ≠ .vote v) ∧
    ∀ e, s.enabled z.cluster p e → LockStep z.cluster s e → InView E.common.view s e →
      (s.step z.cluster p e).isSome := by
  obtain ⟨progress,safe⟩ := run.safe (I := fun s => E.Progress p z s) starts.progress (by
    rintro s e progress ⟨enabled,lockStep,inView⟩
    exact progress.step signed good evidence mode enabled lockStep inView)
  have steps (e : SystemEvent) (enabled : s.enabled z.cluster p e) (lockStep : LockStep z.cluster s e)
      (inView : InView E.common.view s e) : (s.step z.cluster p e).isSome :=
    safe e ⟨enabled,lockStep,inView⟩
  cases progress with
  | watching watching accounting log =>
    refine ⟨by simp [log],fun i inside _ => ⟨(watching i inside).common,fun job member => ⟨?_,?_⟩⟩,?_,steps⟩
    · exact (watching i inside).takes good evidence inside member
    · rintro ep rfl
      exact ((watching i inside).jobs _ member).elim
    · intro x member v vote
      rcases (accounting.packets x member).msg with ⟨msg,_⟩ | ⟨_,_,msg⟩ | ⟨_,_,msg⟩ <;>
        exact nomatch msg.symm.trans vote
  | closing done silent resolved =>
    refine ⟨resolved,fun i inside here => ⟨Or.inr (done i inside here).common,?_⟩,by simp [silent],steps⟩
    simp [(done i inside here).pending]

/-! The first view of three nodes: node zero sends one version to node one and the other
to node two. -/

def threeNodes : Setting := ⟨3,1,true,.plain⟩

def twoVersions (version : Bool) : Proposal :=
  newCandidateProposal transparent (threeNodes.config 0) .init [[7]] genesisCert 1 [if version then 50 else 49]

def splitView : Equivocation where
  common := .initial threeNodes
  prop := twoVersions
  ext version := ⟨twoVersions version,candidateBlock transparent [[7]] genesisCert 1 [if version then 50 else 49],
    decodedCert genesisCert⟩
  gets i := decide (i = 2)

def splitStart : System where
  nodes i := ⟨{ clientConnects (threeNodes.config i) .init with timers := 1, gcallFuncFinish := false },[],[]⟩
  net := [⟨1,some 1,.prop (twoVersions false)⟩,⟨2,some 1,.prop (twoVersions true)⟩]
  log := []
  signed := []

theorem splitView_good : splitView.Good transparent threeNodes where
  leader := by decide
  decoded := by decide +kernel
  sender _ := rfl
  miner _ := rfl
  differ := by decide +kernel
  unrecorded := rfl
  both
    | false => ⟨1,⟨by decide,by decide⟩,rfl⟩
    | true => ⟨2,⟨by decide,by decide⟩,rfl⟩

theorem splitStart_starts : splitView.Starts transparent threeNodes splitStart where
  common i inside := initial_common inside
  certified i inside := ⟨genesisCert,Finmap.lookup_singleton_eq,by decide +kernel⟩
  accepts := by decide +kernel
  unflagged _ _ := ⟨rfl,rfl⟩
  unread _ _ := ⟨rfl,rfl⟩
  clocked _ _ := ⟨rfl,by simp [splitStart],by simp [splitStart]⟩
  quiet _ _ := rfl
  led := rfl
  net x := by
    simp only [splitStart, List.mem_cons, List.not_mem_nil, or_false]
    constructor
    · rintro (rfl | rfl)
      · exact ⟨1,⟨by decide,by decide⟩,rfl⟩
      · exact ⟨2,⟨by decide,by decide⟩,rfl⟩
    · rintro ⟨i,⟨inside,follower⟩,rfl⟩
      have bound : i < 3 := inside
      have nonzero : i ≠ 0 := follower
      obtain rfl | rfl : i = 1 ∨ i = 2 := by omega
      · exact Or.inl rfl
      · exact Or.inr rfl
  log := rfl

def splitRound : List SystemEvent :=
  [.deliver 0,.work 1 0 [],.deliver 0,.work 2 0 [],.deliver 0,.deliver 0,.deliver 0,.deliver 0,
    .work 0 0 [],.work 0 0 [],.work 1 0 [],.work 1 0 [],.work 1 0 [],.work 2 0 [],.work 2 0 [],.work 2 0 [],
    .deliver 0,.deliver 0,.deliver 0,.deliver 0,.work 0 0 [],.work 0 0 [],.work 1 0 [],.work 1 0 [],
    .work 2 0 [],.work 2 0 [],.callback 0,.callback 1,.callback 2]

theorem split_view_is_resolved : ∃ s : System,
    s.log.map (fun e => (e.node,e.view)) = [(0,1),(1,1),(2,1)] ∧
    ∀ e ∈ s.log, splitView.Resolved transparent threeNodes e.state := by
  obtain ⟨s,run,completed⟩ := Guarded.Machine.reaches
    (fun s : System => s.log.map (fun e => (e.node,e.view)) = [(0,1),(1,1),(2,1)])
    (show (((systemMachine threeNodes.cluster transparent).restrict fun s e =>
      LockStep threeNodes.cluster s e ∧ InView splitView.common.view s e).replay splitRound
      splitStart).any _ = true by decide +kernel)
  exact ⟨s,completed,(equivocation_is_resolved transparent_laws.signed splitView_good rfl (.inl rfl)
    splitStart_starts run).1⟩

end Equivocation

end ReputationSMR
