import ReputationSMR.RoundSteps

/-! How a node gets into a view and out of it: the state after a callback, the start of
the round, the round of a leader that withholds, and the callback. -/
namespace ReputationSMR

open Wire FiniteMap

/-! ## The start of a view -/

/-- Nothing is stored for a view or a later one. -/
structure Fresh (n : SyncHS) (view : Nat) : Prop where
  links : ∀ v, view ≤ v → n.fpropMap.lookup v = none ∧ n.proposalByviewMap.lookup v = none
  tally : ∀ v, view ≤ v → n.receivedVotes.lookup v = none ∧ n.isCertified.lookup v = none ∧
    n.certMap.lookup v = none

/-- The state in which a node starts a view. -/
structure Started (p : Platform) (z : Setting) (C : Common) (n : SyncHS) : Prop where
  common : n.common = C
  ground : n.ground = C.ground
  fresh : Fresh n C.view
  headCert : ∃ cert, n.certMap.lookup C.bc.head = some cert ∧ HeadCert p z.size C cert

/-- A node that has entered a view and has not started its round. -/
structure Entered (p : Platform) (z : Setting) (C : Common) (node : Node) : Prop where
  started : Started p z C node.state
  clocked : Clocked z node.state.clock node.pending
  plain : z.timerMode = .plain → node.state.withholdingProposalInject = false
  pending : node.pending = []
  idle : node.state.timers = 0

/-- A node in a view in which the leader proposes and has not yet done so. -/
structure Waiting (p : Platform) (z : Setting) (C : Common) (i : Nat) (node : Node) : Prop where
  started : Started p z C node.state
  clocked : Clocked z node.state.clock node.pending
  unwithheld : Unwithheld z node.state.clock node.pending
  jobs : ∀ job ∈ node.pending, job = .round
  led : i = C.leader → node.state.timers = 1 → .round ∈ node.pending

theorem Entered.waiting {p : Platform} {z : Setting} {C : Common} {node : Node} (entered : Entered p z C node)
    (i : Nat) : Waiting p z C i node := by
  refine ⟨entered.started,entered.clocked,?_,by simp [entered.pending],?_⟩
  · rintro (plain | ⟨running,_⟩)
    · exact entered.plain plain
    · exact absurd (entered.idle.symm.trans running) (by decide)
  · intro _ running
    exact absurd (entered.idle.symm.trans running) (by decide)

namespace Round

variable {p : Platform} {z : Setting} {R : Round} {i : Nat} {node : Node} {n : SyncHS} {pending : List Job}

theorem fresh_row {γ : Type} {m : Map Nat (Map Nat γ)} {view : Nat} (absent : m.lookup view = none) :
    row m view = ∅ := by
  rw [row, absent]
  rfl

theorem not_complete (good : R.Good p z) {l : Links} (absent : l.fpropMap.lookup R.common.view = none) :
    ¬R.Complete z l := by
  rw [Complete, fresh_row absent, size_empty]
  have := good.several
  omega

theorem Started.linked (good : R.Good p z) (started : Started p z R.common n)
    (follower : i ≠ R.common.leader) : R.Linked p z i n.links := by
  obtain ⟨noForward,noProposal⟩ := started.fresh.links R.common.view le_rfl
  have short : ¬R.Complete z n.links := not_complete good noForward
  refine ⟨?_,?_,?_,?_,fun leader => absurd leader follower,?_⟩
  · intro j member
    rw [show row n.links.fpropMap R.common.view = ∅ from fresh_row noForward] at member
    simp at member
  · intro x found
    cases noProposal.symm.trans found
  · rw [if_neg (by simp [follower,short])]
    exact congrArg Common.bc started.common
  · intro _
    rw [if_neg short]
    exact congrArg Common.proposalMap started.common
  · exact fun v after => started.fresh.links v after.le

theorem Started.tallied (good : R.Good p z) (started : Started p z R.common n) (pending : List Job) :
    R.Tallied p z n.tally pending := by
  obtain ⟨noVotes,noLatch,noCert⟩ := started.fresh.tally R.common.view le_rfl
  have votes : n.tally.voteMap = R.common.voteMap := congrArg Common.voteMap started.common
  have empty : row n.tally.receivedVotes R.common.view = ∅ := fresh_row noVotes
  refine ⟨?_,?_,?_,?_,?_,?_,?_,started.headCert,fun v after => started.fresh.tally v after.le⟩
  · exact fun v _ => congrArg (Finmap.lookup v) votes
  · intro j x found
    rw [votes, fresh_row (good.common.noVotes _ le_rfl)] at found
    cases found
  · intro j v found
    rw [empty] at found
    cases found
  · exact fun set => absurd (noLatch.symm.trans set) (by simp)
  · intro _
    rw [empty]
    have positive := good.common.total_pos (by have := good.several; omega)
    simpa [sumAt] using positive.le
  · exact fun set => absurd (noLatch.symm.trans set) (by simp)
  · exact fun cert found => absurd (noCert.symm.trans found) (by simp)

theorem active_of_waiting (good : R.Good p z) (waiting : Waiting p z R.common i node)
    (follower : i ≠ R.common.leader) : R.Active p z i node where
  ground := waiting.started.ground
  linked := Started.linked good waiting.started follower
  tallied := Started.tallied good waiting.started node.pending
  clocked := waiting.clocked
  unwithheld := waiting.unwithheld
  led := fun leader => absurd leader follower
  jobs := by
    intro job member
    rw [waiting.jobs job member]
    exact follower

/-! ## The round of the leader -/

theorem startRound_leader (mode : z.timerMode = .plain ∨ z.timerMode = .withhold)
    (normal : ¬(z.timerMode = .withhold ∧ n.leader % 2 ≠ 0)) (leader : n.leader = i)
    (off : z.timerMode = .plain → n.withholdingProposalInject = false) :
    startRound p (z.config i) n = propose p (z.config i) { n with withholdingProposalInject := false } := by
  have own : n.leader = (z.config i).id := leader
  rcases mode with plain | withhold
  · simp only [startRound, Setting.config_timerMode, plain, if_pos own]
    rw [← off plain]
  · have even : ¬n.leader % 2 ≠ 0 := fun odd => normal ⟨withhold,odd⟩
    simp only [startRound, Setting.config_timerMode, withhold, if_pos own, if_neg even]

def opened (z : Setting) (C : Common) (n : SyncHS) (cert : BlockCertificate) : Round :=
  ⟨C,n.pendingCommands.drop (n.pendingCommands.length - z.blockSize),cert⟩

def proposing (p : Platform) (z : Setting) (R : Round) (n : SyncHS) : SyncHS :=
  { n with
    pendingCommands := n.pendingCommands.take (n.pendingCommands.length - z.blockSize)
    withholdingProposalInject := false
    bc := R.common.bc.extend p (R.block p)
    proposalByviewMap := n.proposalByviewMap.insert R.common.view (R.prop p) }

theorem propose_eq {C : Common} {cert : BlockCertificate} (common : n.common = C) (leader : i = C.leader)
    (found : n.certMap.lookup C.bc.head = some cert) (enough : z.blockSize ≤ n.pendingCommands.length) :
    propose p (z.config i) { n with withholdingProposalInject := false } =
      some (proposing p z (opened z C n cert) n,⟨[.proposed ((opened z C n cert).prop p)],[],[]⟩) := by
  subst common
  have plenty : ¬n.pendingCommands.length < (z.config i).blockSize := Nat.not_lt.mpr enough
  simp only [propose, SyncHS.getCertForBlockIndex, SyncHS.getCmdsIfSufficient, if_neg plenty]
  rw [show n.certMap.lookup n.bc.head = some cert from found, leader]
  rfl

theorem eraseIdx_round {c : Clock} (clocked : Clocked z c pending) {index : Nat}
    (only : ∀ job ∈ pending, job = .round) (found : pending[index]? = some .round) :
    c.timers = 1 ∧ pending.eraseIdx index = [] := by
  obtain ⟨inside,_⟩ := List.getElem?_eq_some_iff.mp found
  have count : pending.count .round = pending.length :=
    List.count_eq_length.mpr fun job member => (only job member).symm
  have rounds := clocked.rounds
  have tokens := clocked.tokens
  refine ⟨by omega,List.eq_nil_of_length_eq_zero ?_⟩
  rw [List.length_eraseIdx_of_lt inside]
  omega

theorem Active.of_proposing (good : R.Good p z) (started : Started p z R.common n)
    (clocked : Clocked z n.clock pending) (running : n.timers = 1) (leader : i = R.common.leader)
    (acked : List (Nat × ExtBlock)) :
    R.Active p z i ⟨proposing p z R n,[.proposed (R.prop p)],acked⟩ := by
  obtain ⟨noForward,noProposal⟩ := started.fresh.links R.common.view le_rfl
  refine ⟨started.ground,?_,Started.tallied good started _,?_,?_,fun _ => running,?_⟩
  · refine ⟨?_,?_,?_,fun follower => absurd leader follower,fun _ => Or.inl ?_,?_⟩
    · intro j member
      rw [show row (proposing p z R n).links.fpropMap R.common.view = ∅ from fresh_row noForward] at member
      simp at member
    · intro x found
      have inserted : (n.proposalByviewMap.insert R.common.view (R.prop p)).lookup R.common.view = some x :=
        found
      rw [lookup_insert, if_pos rfl] at inserted
      exact Option.some.inj inserted ▸ R.carries_prop p
    · rw [if_pos (Or.inl leader)]
      rfl
    · exact congrArg Common.proposalMap started.common
    · intro v after
      obtain ⟨noForwards,noProposals⟩ := started.fresh.links v after.le
      exact ⟨noForwards,(lookup_insert _ _ _ _).trans ((if_neg (by omega)).trans noProposals)⟩
  · exact ⟨clocked.tokens,by simp,by simp⟩
  · exact fun _ => rfl
  · intro job member
    obtain rfl := List.mem_singleton.mp member
    exact ⟨leader,rfl⟩

theorem opens {C : Common} {index : Nat} (order : List Nat) (several : 2 ≤ z.size) (good : C.Good p z.size)
    (mode : z.timerMode = .plain ∨ z.timerMode = .withhold)
    (normal : ¬(z.timerMode = .withhold ∧ C.leader % 2 ≠ 0)) (waiting : Waiting p z C i node)
    (leader : i = C.leader) (found : node.pending[index]? = some .round) :
    ∃ (R : Round) (node' : Node), R.common = C ∧ R.Good p z ∧
      node.step p (z.config i) (.work index order) = some (node',[]) ∧ R.Active p z i node' ∧
      .proposed (R.prop p) ∈ node'.pending ∧ node'.state.fpropMap = node.state.fpropMap := by
  obtain ⟨cert,certified,headCert⟩ := waiting.started.headCert
  obtain ⟨running,alone⟩ := eraseIdx_round waiting.clocked waiting.jobs found
  have leads : node.state.leader = C.leader := ground_leader waiting.started.ground
  have off (plain : z.timerMode = .plain) : node.state.withholdingProposalInject = false :=
    waiting.unwithheld (Or.inl plain)
  have ran := (startRound_leader mode (leads ▸ normal) (leads.trans leader.symm) off).trans
    (propose_eq (p := p) waiting.started.common leader certified
      (waiting.clocked.enough (List.mem_of_getElem? found)))
  have good' : (opened z C node.state cert).Good p z := ⟨several,good,headCert⟩
  have step : node.step p (z.config i) (.work index order) = _ := Node.step_work found ran
  rw [alone, List.nil_append] at step
  exact ⟨_,_,rfl,good',step,.of_proposing good' waiting.started waiting.clocked running leader _,
    List.mem_cons_self,rfl⟩

theorem waits {C : Common} {index : Nat} {order : List Nat}
    (mode : z.timerMode = .plain ∨ z.timerMode = .withhold)
    (normal : ¬(z.timerMode = .withhold ∧ C.leader % 2 ≠ 0)) (waiting : Waiting p z C i node)
    (follower : i ≠ C.leader) (found : node.pending[index]? = some .round) :
    ∃ node', node.step p (z.config i) (.work index order) = some (node',[]) ∧ Waiting p z C i node' := by
  have leads : node.state.leader = C.leader := ground_leader waiting.started.ground
  have ran := startRound_follower (p := p) mode (leads ▸ normal) (leads ▸ follower) fun plain =>
    waiting.unwithheld (Or.inl plain)
  have clocked := waiting.clocked.work index (show Job.round ∉ [] by simp)
  refine ⟨_,Node.step_work found ran,?_,⟨clocked.tokens,clocked.rounds,clocked.enough⟩,fun _ => rfl,?_,
    fun leader => absurd leader follower⟩
  · obtain ⟨common,ground,fresh,headCert⟩ := waiting.started
    exact ⟨common,ground,⟨fresh.links,fresh.tally⟩,headCert⟩
  · intro job member
    rcases of_mem_work member with old | new
    · exact waiting.jobs job old
    · simp at new

end Round

section Entering

variable {p : Platform} {z : Setting} {C D : Common} {i : Nat} {node : Node} {n : SyncHS}

theorem Started.setClock (started : Started p z C n) (c : Clock) : Started p z C (n.setClock c) :=
  ⟨started.common,started.ground,⟨started.fresh.links,started.fresh.tally⟩,started.headCert⟩

theorem Waiting.command (waiting : Waiting p z C i node) (cmd : Bytes) :
    ∃ node', node.step p (z.config i) (.command cmd) = some (node',[]) ∧ Waiting p z C i node' := by
  obtain ⟨c,jobs,ran,ticked⟩ := command_ticks i waiting.clocked cmd
  exact ⟨_,Node.step_command ran,waiting.started.setClock c,ticked.clocked,waiting.unwithheld.ticked ticked,
    ticked.only waiting.jobs,fun leader => ticked.waits (waiting.led leader)⟩

/-! ## The end of a view -/

/-- A node whose callback leads to the common state `D`. -/
structure Ready (p : Platform) (z : Setting) (D : Common) (node : Node) : Prop where
  pending : node.pending = []
  clocked : Clocked z node.state.clock node.pending
  running : node.state.timers = 1
  advances : node.state.advances
  block : (node.state.bc.blocksByHeight.lookup node.state.bc.head).isSome
  common : node.state.common.advance p z.size = D
  nonzero : D.bc.head ≠ 0
  unflagged : node.state.equivocatingProposalInject = false
  honest : node.state.maliciousVoteInject = false
  plain : z.timerMode = .plain → node.state.withholdingProposalInject = false
  fresh : Fresh node.state D.view
  headCert : ∃ cert, node.state.certMap.lookup D.bc.head = some cert ∧ HeadCert p z.size D cert

theorem Ready.view (ready : Ready p z D node) : node.state.view + 1 = D.view := by
  rw [← ready.common]
  rfl

theorem ground_of_common (common : n.common = C) (unflagged : n.equivocatingProposalInject = false)
    (honest : n.maliciousVoteInject = false) : n.ground = C.ground := by
  subst common
  simp only [SyncHS.ground, Common.ground, SyncHS.common, unflagged, honest]

/-- Neither the forwards and the chain nor the votes and the certificates change. -/
structure Settles (node node' : Node) : Prop where
  links : node'.state.links = node.state.links
  tally : node'.state.tally = node.state.tally
  pending : node'.pending = node.pending

theorem Ready.command (ready : Ready p z D node) (cmd : Bytes) :
    ∃ node', node.step p (z.config i) (.command cmd) = some (node',[]) ∧ Ready p z D node' ∧
      Settles node node' := by
  obtain ⟨c,jobs,ran,ticked⟩ := command_ticks i ready.clocked cmd
  rcases ticked.started with ⟨rfl,same⟩ | ⟨_,idle,_⟩
  · refine ⟨_,Node.step_command ran,⟨?_,ticked.clocked,same.trans ready.running,?_,ready.block,ready.common,
      ready.nonzero,ready.unflagged,ready.honest,?_,⟨ready.fresh.links,ready.fresh.tally⟩,ready.headCert⟩,
      rfl,rfl,List.append_nil _⟩
    · rw [ready.pending, List.append_nil]
    · exact ready.advances.imp_left fun set => ticked.flag.trans set
    · exact fun plain => ticked.flag.trans (ready.plain plain)
  · exact absurd (idle.symm.trans ready.running) (by decide)

theorem Node.step_callback {cfg : NodeConfig} {n' : SyncHS} {acks : List ExtBlock}
    (ran : ReputationSMR.callback p cfg { node.state with timers := node.state.timers - 1 } =
      some (n',⟨[],[],acks⟩)) :
    node.step p cfg .callback =
      some (⟨n',node.pending,node.acked ++ acks.map fun b => (node.state.view,b)⟩,[]) := by
  simp only [Node.step, Node.apply, ran, Option.map_some, List.append_nil]

theorem Ready.callback (ready : Ready p z D node) (inside : i < z.size) :
    ∃ node', node.step p (z.config i) .callback = some (node',[]) ∧ Entered p z D node' ∧
      Settles node node' := by
  have total : (ReputationSMR.callback p (z.config i)
      { node.state with timers := node.state.timers - 1 }).isSome := callback_total ready.block
  obtain ⟨⟨n',effect⟩,ran⟩ := Option.isSome_iff_exists.mp total
  have tokens : (if node.state.gcallFuncFinish then 1 else 0) + node.state.syncChannel +
      node.state.timers = 1 := ready.clocked.tokens
  have running := ready.running
  cases callback_cases ran with
  | kept counters stays => exact absurd ready.advances stays
  | advanced b counters moves found =>
    have common := (nextView_common (p := p) inside
      { node.state with timers := node.state.timers - 1 } counters).trans ready.common
    have idle : node.state.timers - 1 = 0 := by omega
    refine ⟨_,Node.step_callback ran,⟨⟨common,?_,⟨ready.fresh.links,ready.fresh.tally⟩,ready.headCert⟩,?_,
      ready.plain,ready.pending,idle⟩,rfl,rfl,rfl⟩
    · refine ground_of_common common ?_ ready.honest
      simp [SyncHS.nextView,ready.unflagged]
    · refine ⟨?_,by simp [ready.pending],by simp [ready.pending]⟩
      change (if node.state.gcallFuncFinish then 1 else 0) + (node.state.syncChannel + 1) +
        (node.state.timers - 1) = 1
      omega

end Entering

theorem recordLeader_later {m : BehaviourMap} {view v : Nat} (leader : Nat) (absent : m.lookup v = none)
    (later : view < v) : (SyncHS.recordLeader m view leader).lookup v = none := by
  rw [SyncHS.recordLeader]
  split
  next => exact absent
  next => exact (lookup_insert _ _ _ _).trans ((if_neg (by omega)).trans absent)

/-! ## The end of a round with an honest leader -/
namespace Round

variable {p : Platform} {z : Setting} {R : Round} {i : Nat} {node : Node} {pending : List Job} {t : Tally}

/-- The votes of everybody. -/
def everyone (z : Setting) : Map Nat Nat := fill (fun _ => 1) (List.range z.size) ∅

/-- The common state when everything in the round is done. -/
def ended (p : Platform) (z : Setting) (R : Round) : Common :=
  { R.common with
    bc := R.common.bc.extend p (R.block p)
    proposalMap := R.recorded
    voteMap := R.common.voteMap.insert R.common.view (everyone z) }

theorem good_ended (laws : p.Laws) (good : R.Good p z) : ((R.ended p z).advance p z.size).Good p z.size := by
  refine good.common.next block_height (block_parent laws good) rfl rfl rfl rfl ?_
    (fun v later => recordLeader_later _ (good.common.noProposal v later.le) later) ?_
  · intro v later
    exact (lookup_insert _ _ _ _).trans ((if_neg (by omega)).trans (good.common.noVotes v later.le))
  · exact fun v later => good.common.noWithholding v later.le

theorem Tallied.certified (good : R.Good p z) (tallied : R.Tallied p z t pending)
    (handled : ∀ j < z.size, R.Handled t j) : t.isCertified.lookup R.common.view = some true := by
  by_contra uncertified
  have light := tallied.light uncertified
  have voters : (row t.receivedVotes R.common.view).keys =
      (row R.common.reputationMap R.common.view).keys := by
    ext j
    rw [good.common.listed]
    constructor
    · intro member
      obtain ⟨v,found⟩ := (mem_keys_iff _ _).mp member
      exact (tallied.pooled j v found).1
    · exact fun inside => (handled j inside).2.resolve_left uncertified
  rw [voters] at light
  have positive := good.common.total_pos (by have := good.several; omega)
  rw [total] at positive light
  linarith

theorem Tallied.everyone (good : R.Good p z) (tallied : R.Tallied p z t pending)
    (handled : ∀ j < z.size, R.Handled t j) :
    t.voteMap = R.common.voteMap.insert R.common.view (everyone z) := by
  have votes : row t.voteMap R.common.view = Round.everyone z := by
    apply Finmap.ext_lookup
    intro j
    rw [Round.everyone, lookup_fill]
    split
    next inside =>
      rw [← at2_eq_row]
      exact (handled j (List.mem_range.mp inside)).1
    next outside =>
      cases found : (row t.voteMap R.common.view).lookup j with
      | none => rfl
      | some x => exact absurd (List.mem_range.mpr (tallied.ones j x found).2) outside
  apply Finmap.ext_lookup
  intro v
  rw [lookup_insert]
  split
  next here =>
    subst here
    have some : at2 t.voteMap R.common.view 0 = some 1 := (handled 0 (by have := good.several; omega)).1
    cases found : t.voteMap.lookup R.common.view with
    | none => simp [at2,found] at some
    | some inner =>
      rw [row, found] at votes
      exact congrArg Option.some votes
  next other => exact tallied.others v other

theorem Certifies.headCert {cert : BlockCertificate} (good : R.Good p z) (certifies : R.Certifies p z cert) :
    HeadCert p z.size ((R.ended p z).advance p z.size) cert := by
  obtain ⟨votes,view,rfl,distinct,cast,heavy⟩ := certifies.shape
  have rows : row ((R.ended p z).advance p z.size).reputationMap
      (((R.ended p z).advance p z.size).view - 1) = row R.common.reputationMap R.common.view := by
    refine (row_insert _ _ _ _).trans (if_neg ?_)
    exact (Nat.lt_succ_self R.common.view).ne
  refine .voted (R.block p) votes view (Nat.succ_ne_zero _) (extend_top block_height) distinct
    (fun v member => (cast v member).1) ?_ ?_ ?_
  · intro v member
    rw [(cast v member).2]
    exact ⟨_,_,rfl⟩
  · intro v member
    rw [rows]
    exact (good.common.listed _).mpr (cast v member).1
  · rw [rows]
    exact heavy

theorem Active.ready (good : R.Good p z) (active : R.Active p z i node) (quiet : node.pending = [])
    (running : 0 < node.state.timers) (appended : i = R.common.leader ∨ R.Complete z node.state.links)
    (records : node.state.proposalMap = R.recorded)
    (handled : ∀ j < z.size, R.Handled node.state.tally j) :
    Ready p z ((R.ended p z).advance p z.size) node := by
  have tokens : (if node.state.gcallFuncFinish then 1 else 0) + node.state.syncChannel +
      node.state.timers = 1 := active.clocked.tokens
  have once : node.state.timers = 1 := by omega
  have off := active.unwithheld (Or.inr ⟨once,by simp [quiet]⟩)
  have bc : node.state.bc = R.common.bc.extend p (R.block p) := active.linked.chain.trans (if_pos appended)
  obtain ⟨cert,certifies,waiting | stored⟩ := active.tallied.latched (active.tallied.certified good handled)
  · simp [quiet] at waiting
  · have view := active.reads.view
    refine ⟨quiet,active.clocked,once,Or.inr (Or.inr ?_),?_,congrArg (Common.advance p z.size) ?_,
      Nat.succ_ne_zero _,congrArg Ground.equivocatingProposalInject active.ground,
      congrArg Ground.maliciousVoteInject active.ground,fun _ => off,⟨?_,?_⟩,?_⟩
    · rw [view, show node.state.certMap.lookup R.common.view = some cert from stored]
      rfl
    · rw [bc, extend_top block_height]
      rfl
    · have votes : node.state.voteMap = _ := active.tallied.everyone good handled
      simp only [SyncHS.common, ended, bc, records, votes, view, active.reads.leader,
        active.reads.reputations]
      have grounds := active.ground
      simp only [SyncHS.ground, Common.ground, Ground.mk.injEq] at grounds
      obtain ⟨_,_,_,malicious,equivocating,withheld,proposing,_⟩ := grounds
      rw [malicious, equivocating, withheld, proposing]
    · exact fun v later => active.linked.later v later
    · exact fun v later => active.tallied.later v later
    · refine ⟨cert,?_,certifies.headCert good⟩
      have head : ((R.ended p z).advance p z.size).bc.head = R.common.view := good.common.head
      rw [head]
      exact stored

end Round

/-! ## The round of a leader that withholds -/

/-- The common state when every node has appended the empty block. -/
def Common.withheld (p : Platform) (C : Common) : Common :=
  { C with
    bc := C.bc.extend p (C.emptyBlock p)
    withproposalMap := SyncHS.recordLeader C.withproposalMap C.view C.leader }

/-- A node in a view whose leader withholds, before and after its round. -/
inductive Withholding (p : Platform) (z : Setting) (C : Common) (node : Node) : Prop where
  | before : Started p z C node.state → Clocked z node.state.clock node.pending →
      (∀ job ∈ node.pending, job = .round) → (node.state.timers = 1 → .round ∈ node.pending) →
      Withholding p z C node
  | after : Ready p z ((C.withheld p).advance p z.size) node → Withholding p z C node

section Withheld

variable {p : Platform} {z : Setting} {C : Common} {i : Nat} {node : Node} {n : SyncHS}

theorem good_withheld (laws : p.Laws) (good : C.Good p z.size) {h : Hash}
    (known : C.bc.hashAt p C.bc.head = some h) : ((C.withheld p).advance p z.size).Good p z.size :=
  good.next Common.emptyBlock_height (Common.emptyBlock_parent laws known) rfl rfl rfl rfl
    (fun v later => good.noVotes v later.le) (fun v later => good.noProposal v later.le)
    (fun v later => recordLeader_later _ (good.noWithholding v later.le) later)

theorem Entered.withholding (entered : Entered p z C node) : Withholding p z C node := by
  refine .before entered.started entered.clocked (by simp [entered.pending]) ?_
  exact fun running => absurd (entered.idle.symm.trans running) (by decide)

theorem startRound_withholds (laws : p.Laws) (mode : z.timerMode = .withhold) (odd : C.leader % 2 ≠ 0)
    (started : Started p z C n) : startRound p (z.config i) n =
      some ({ n with
        withholdingProposalInject := true
        bc := C.bc.extend p (C.emptyBlock p)
        certMap := n.certMap.insert C.view (emptyCertificate ((C.emptyBlock p).getBlockHash p) C.view)
        withproposalMap := SyncHS.recordLeader C.withproposalMap C.view C.leader },.none) := by
  obtain ⟨cert,found,headCert⟩ := started.headCert
  have same := started.common
  subst same
  have parity : n.leader % 2 ≠ 0 := odd
  simp only [startRound, Setting.config_timerMode, mode, if_pos parity, handleWithholdingProposal,
    SyncHS.getCertForBlockIndex]
  rw [show n.certMap.lookup n.bc.head = some cert from found]
  have appended := Common.appendEmptyBlock_eq (n := { n with withholdingProposalInject := true }) rfl
    (headCert.hash laws)
  simp only [appended]
  rfl

theorem Withholding.work (laws : p.Laws) (good : C.Good p z.size) (mode : z.timerMode = .withhold)
    (odd : C.leader % 2 ≠ 0) (withholding : Withholding p z C node) {index : Nat} {order : List Nat} {J : Job}
    (found : node.pending[index]? = some J) :
    ∃ node', node.step p (z.config i) (.work index order) = some (node',[]) ∧ Withholding p z C node' ∧
      node'.state.view = node.state.view := by
  cases withholding with
  | before started clocked only _ =>
    obtain rfl := only J (List.mem_of_getElem? found)
    obtain ⟨running,alone⟩ := Round.eraseIdx_round clocked only found
    have step : node.step p (z.config i) (.work index order) = _ :=
      Node.step_work found (startRound_withholds laws mode odd started)
    rw [alone, List.nil_append] at step
    have view : node.state.view = C.view := ground_view started.ground
    have head : ((C.withheld p).advance p z.size).bc.head = C.view := good.head
    refine ⟨_,step,.after ⟨rfl,⟨clocked.tokens,by simp,by simp⟩,running,Or.inl rfl,?_,
      congrArg (Common.advance p z.size) ?_,Nat.succ_ne_zero _,
      congrArg Ground.equivocatingProposalInject started.ground,
      congrArg Ground.maliciousVoteInject started.ground,?_,⟨?_,?_⟩,?_⟩,rfl⟩
    · rw [extend_top Common.emptyBlock_height]
      rfl
    · have same := started.common
      subst same
      rfl
    · intro plain
      rw [mode] at plain
      cases plain
    · exact fun v later => started.fresh.links v (Nat.le_of_succ_le later)
    · intro v later
      obtain ⟨noVotes,noLatch,noCert⟩ := started.fresh.tally v (Nat.le_of_succ_le later)
      exact ⟨noVotes,noLatch,(lookup_insert _ _ _ _).trans ((if_neg (Nat.ne_of_gt later)).trans noCert)⟩
    · refine ⟨_,?_,Common.headCert_emptyBlock (C := C) rfl C.view⟩
      rw [head, lookup_insert, if_pos rfl]
  | after ready => simp [ready.pending] at found

theorem Withholding.command (withholding : Withholding p z C node) (cmd : Bytes) :
    ∃ node', node.step p (z.config i) (.command cmd) = some (node',[]) ∧ Withholding p z C node' ∧
      node'.state.view = node.state.view := by
  cases withholding with
  | before started clocked only led =>
    obtain ⟨c,jobs,ran,ticked⟩ := command_ticks i clocked cmd
    exact ⟨_,Node.step_command ran,
      .before (started.setClock c) ticked.clocked (ticked.only only) (ticked.waits led),rfl⟩
  | after ready =>
    obtain ⟨node',step,ready',_⟩ := ready.command cmd
    exact ⟨node',step,.after ready',Nat.succ_injective (ready'.view.trans ready.view.symm)⟩

end Withheld

end ReputationSMR
