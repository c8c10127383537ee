import ReputationSMR.RoundNode

/-! Every piece of work that a round leaves pending can be done, keeps the node in the
round, and loses nothing: the step lemma of a node in a round with an honest leader,
and how a node gets into the round. -/
namespace ReputationSMR

open Wire FiniteMap

namespace Round

variable {p : Platform} {z : Setting} {R : Round} {i j index : Nat} {node : Node} {n n' : SyncHS}
  {jobs : List Job} {J : Job} {sends : List Outgoing}

theorem Moves.of_work (found : node.pending[index]? = some J)
    (forwards : ∀ j ∈ (row node.state.fpropMap R.common.view).keys,
      j ∈ (row n'.fpropMap R.common.view).keys)
    (forwardDone : ∀ j, J = .proposeChannel (R.forward p j) → j ∈ (row n'.fpropMap R.common.view).keys)
    (votes : ∀ j, R.Handled node.state.tally j → R.Handled n'.tally j)
    (voteDone : ∀ j, J = .voteChannel (R.vote p j) → R.Handled n'.tally j)
    (forward : J = .forward (R.prop p) →
      R.Forwarded p i ⟨n',node.pending.eraseIdx index ++ jobs,node.acked⟩ sends)
    (proposed : J = .proposed (R.prop p) →
      n'.proposalMap = R.recorded ∧ .broadcast (.prop (R.prop p)) ∈ sends)
    (recorded : node.state.proposalMap = R.recorded → n'.proposalMap = R.recorded)
    (voting : ∀ x, J = .vote (R.ext p x) →
      R.Voted p i ⟨n',node.pending.eraseIdx index ++ jobs,node.acked⟩ sends)
    (completed : R.Complete z n'.links → R.Complete z node.state.links ∨
      R.Voting p ⟨n',node.pending.eraseIdx index ++ jobs,node.acked⟩ ∨
      R.Voted p i ⟨n',node.pending.eraseIdx index ++ jobs,node.acked⟩ sends)
    (allowed : ∀ o ∈ sends, R.Sends p i o) :
    R.Moves p z i node ⟨n',node.pending.eraseIdx index ++ jobs,node.acked⟩ sends := by
  refine ⟨?_,?_,?_,?_,recorded,?_,completed,allowed⟩
  · rintro j (waiting | there)
    · by_cases same : J = .proposeChannel (R.forward p j)
      · exact Or.inr (forwardDone j same)
      · exact Or.inl (mem_work found waiting (Ne.symm same) jobs)
    · exact Or.inr (forwards j there)
  · rintro j (waiting | there)
    · by_cases same : J = .voteChannel (R.vote p j)
      · exact Or.inr (voteDone j same)
      · exact Or.inl (mem_work found waiting (Ne.symm same) jobs)
    · exact Or.inr (votes j there)
  · intro waiting
    by_cases same : J = .forward (R.prop p)
    · exact Or.inr (forward same)
    · exact Or.inl (mem_work found waiting (Ne.symm same) jobs)
  · intro waiting
    by_cases same : J = .proposed (R.prop p)
    · exact Or.inr (proposed same)
    · exact Or.inl (mem_work found waiting (Ne.symm same) jobs)
  · rintro ⟨x,carries,waiting⟩
    by_cases same : J = .vote (R.ext p x)
    · exact Or.inr (voting x same)
    · exact Or.inl ⟨x,carries,mem_work found waiting (Ne.symm same) jobs⟩

def Works (p : Platform) (z : Setting) (R : Round) (i : Nat) (node : Node) (index : Nat)
    (order : List Nat) : Prop :=
  ∃ node' sends, node.step p (z.config i) (.work index order) = some (node',sends) ∧
    R.Active p z i node' ∧ R.Moves p z i node node' sends

section Jobs

variable {order : List Nat}

theorem forward_works (laws : p.Laws) (good : R.Good p z) (active : R.Active p z i node)
    (inside : i < z.size) (found : node.pending[index]? = some (.forward (R.prop p))) :
    R.Works p z i node index order := by
  have follower : i ≠ R.common.leader := (active.jobs _ (List.mem_of_getElem? found)).1
  refine ⟨_,_,Node.step_work found (forward_eq laws good active.reads),?_,?_⟩
  · refine active.work found nofun rfl active.linked (active.tallied.work found rfl _) rfl ?_ (by simp)
    intro job member
    obtain rfl := List.mem_singleton.mp member
    exact ⟨i,inside,follower,rfl⟩
  · refine .of_work found (fun _ h => h) nofun (fun _ h => h) nofun (fun _ => ?_) nofun id nofun Or.inl ?_
    · exact ⟨List.mem_append_right _ List.mem_cons_self,List.mem_cons_self⟩
    · intro o member
      obtain rfl := List.mem_singleton.mp member
      exact Or.inr (Or.inl ⟨rfl,follower⟩)

theorem recorded_idem (m : BehaviourMap) (view leader : Nat) :
    SyncHS.recordLeader (SyncHS.recordLeader m view leader) view leader =
      SyncHS.recordLeader m view leader := by
  have set : at2 (SyncHS.recordLeader m view leader) view leader = some 1 := by
    rw [at2_recordLeader]
    split
    next already => exact already
    next => simp
  rw [SyncHS.recordLeader, if_pos set]

theorem proposed_works (active : R.Active p z i node)
    (found : node.pending[index]? = some (.proposed (R.prop p))) : R.Works p z i node index order := by
  have leader : i = R.common.leader := (active.jobs _ (List.mem_of_getElem? found)).1
  have records : node.state.addProposaltoMap.proposalMap = R.recorded := by
    rw [SyncHS.addProposaltoMap, active.reads.view, active.reads.leader]
    rcases active.linked.leads leader with same | same
    · exact congrArg (SyncHS.recordLeader · _ _) same
    · exact (congrArg (SyncHS.recordLeader · _ _) same).trans (recorded_idem _ _ _)
  refine ⟨_,_,Node.step_work found rfl,?_,?_⟩
  · refine active.work found nofun rfl ?_ (active.tallied.work found rfl _) rfl (by simp) (by simp)
    exact { active.linked with
      chain := active.linked.chain
      follows := fun follower => absurd leader follower
      leads := fun _ => Or.inr records }
  · refine .of_work found (fun _ h => h) nofun (fun _ h => h) nofun nofun (fun _ => ?_) (fun _ => records) nofun
      Or.inl ?_
    · exact ⟨records,List.mem_cons_self⟩
    · intro o member
      obtain rfl := List.mem_singleton.mp member
      exact Or.inl ⟨rfl,leader⟩

theorem vote_works (active : R.Active p z i node) (inside : i < z.size) {x : Proposal}
    (carries : R.Carries p x) (found : node.pending[index]? = some (.vote (R.ext p x))) :
    R.Works p z i node index order := by
  have honest : node.state.maliciousVoteInject = false := congrArg Ground.maliciousVoteInject active.ground
  have credited : (node.state.voted (z.config i)).tally = R.credit node.state.tally i := by
    simp only [SyncHS.voted, SyncHS.tally, credit, active.reads.view, Setting.config_id]
  have sent : R.Voted p i ⟨node.state.voted (z.config i),node.pending.eraseIdx index ++
      [.voteChannel (R.vote p i)],node.acked⟩ [.broadcast (.vote (R.vote p i))] :=
    ⟨List.mem_append_right _ List.mem_cons_self,List.mem_cons_self⟩
  refine ⟨_,_,Node.step_work found (voteAfterForwards_eq active.reads honest carries),?_,?_⟩
  · refine active.work found (by simp) rfl active.linked ?_ rfl ?_ (by simp)
    · rw [credited]
      exact (active.tallied.credit inside).work found rfl _
    · intro job member
      obtain rfl := List.mem_singleton.mp member
      exact ⟨i,inside,rfl⟩
  · refine .of_work found (fun _ h => h) (by simp) ?_ (by simp) (by simp) (by simp) id (fun _ _ => sent) Or.inl ?_
    · intro j handled
      rw [credited]
      exact handled.credit i
    · intro o member
      obtain rfl := List.mem_singleton.mp member
      exact Or.inr (Or.inr rfl)

theorem voteChannel_works (laws : p.Laws) (good : R.Good p z) (active : R.Active p z i node)
    (inside : j < z.size) (found : node.pending[index]? = some (.voteChannel (R.vote p j))) :
    R.Works p z i node index order := by
  have before := active.tallied.work found rfl []
  rw [List.append_nil] at before
  obtain ⟨n',jobs,ran,counts⟩ := voteHandler_counts laws good order active.ground before inside
  refine ⟨_,_,Node.step_work found ran,?_,?_⟩
  · refine active.work found nofun counts.ground (counts.links ▸ active.linked) counts.tallied counts.clock
      ?_ ?_
    · intro job member
      obtain ⟨cert,rfl,certifies⟩ := counts.jobs job member
      exact ⟨rfl,certifies⟩
    · intro member
      obtain ⟨_,same,_⟩ := counts.jobs _ member
      cases same
  · have forwards : n'.fpropMap = node.state.fpropMap := congrArg Links.fpropMap counts.links
    have records : n'.proposalMap = node.state.proposalMap := congrArg Links.proposalMap counts.links
    refine .of_work found (forwards ▸ fun _ h => h) nofun counts.kept ?_ nofun nofun (records ▸ id) nofun
      (counts.links ▸ Or.inl) (by simp)
    intro k same
    have voters := congrArg (fun job => (Job.heldVote job).map ProtoVote.getVoter) same
    obtain rfl : j = k := Option.some.inj voters
    exact counts.handled

theorem addCert_works (good : R.Good p z) (active : R.Active p z i node) {cert : BlockCertificate}
    (certifies : R.Certifies p z cert)
    (found : node.pending[index]? = some (.addCert cert R.common.view)) : R.Works p z i node index order := by
  refine ⟨_,_,Node.step_work found rfl,?_,?_⟩
  · refine active.work found nofun rfl active.linked ?_ rfl (by simp) (by simp)
    have stored := active.tallied.addCert good.common.head certifies
    -- the latch is now kept by the stored certificate, so no pending one is needed
    refine { stored with latched := fun _ => ?_ }
    exact ⟨cert,certifies,Or.inr ((lookup_insert _ _ _ _).trans (if_pos rfl))⟩
  · exact .of_work found (fun _ h => h) nofun (fun _ h => h) nofun nofun nofun id nofun Or.inl (by simp)

theorem complete_addForward (view : n.view = R.common.view) (j : Nat) :
    R.Complete z (n.addForward (R.forward p j)).links ↔
      ¬size (n.forwardsWith (R.forward p j)) < z.size - 1 := by
  have same : row (n.addForward (R.forward p j)).links.fpropMap R.common.view =
      n.forwardsWith (R.forward p j) := by
    refine (row_addForward view j).trans ?_
    rw [SyncHS.forwardsWith, view]
    rfl
  rw [Complete, same, not_lt]

theorem addForward_ground (unflagged : n.equivocatingProposalInject = false) (x : Proposal) :
    (n.addForward x).ground = n.ground :=
  congrArg (fun flag => { n.ground with equivocatingProposalInject := flag }) unflagged.symm

theorem addForwardedBlock_parts (p : Platform) (n : SyncHS) (ep : ExtProposal) :
    (n.addForwardedBlock p ep).ground = n.ground ∧ (n.addForwardedBlock p ep).clock = n.clock ∧
      (n.addForwardedBlock p ep).tally = n.tally ∧ (n.addForwardedBlock p ep).fpropMap = n.fpropMap :=
  ⟨rfl,rfl,rfl,rfl⟩

structure CountsForward (p : Platform) (z : Setting) (R : Round) (i j : Nat) (n : SyncHS)
    (pending : List Job) (n' : SyncHS) (jobs : List Job) (sends : List Outgoing) : Prop where
  ground : n'.ground = n.ground
  clock : n'.clock = n.clock
  linked : R.Linked p z i n'.links
  tallied : R.Tallied p z n'.tally (pending ++ jobs)
  keys : (row n'.fpropMap R.common.view).keys = insert j (row n.fpropMap R.common.view).keys
  kept : ∀ k, R.Handled n.tally k → R.Handled n'.tally k
  recorded : n.proposalMap = R.recorded → n'.proposalMap = R.recorded
  spawned : ∀ job ∈ jobs, i ≠ R.common.leader ∧ job = .vote (R.ext p (R.forward p j)) ∨
    job = .voteChannel (R.vote p i)
  completed : R.Complete z n'.links → .vote (R.ext p (R.forward p j)) ∈ jobs ∨
    .voteChannel (R.vote p i) ∈ jobs ∧ .broadcast (.vote (R.vote p i)) ∈ sends
  sent : ∀ o ∈ sends, R.Sends p i o

section Counting

variable {pending : List Job} (ground : n.ground = R.common.ground) (linked : R.Linked p z i n.links)
  (tallied : R.Tallied p z n.tally pending) (sender : j < z.size) (follower : j ≠ R.common.leader)
  (unread : ¬R.Complete z n.links)

include ground linked tallied sender follower unread

theorem counts_short (still : ¬R.Complete z (n.addForward (R.forward p j)).links) :
    CountsForward p z R i j n pending (n.addForward (R.forward p j)) [] [] where
  ground := addForward_ground (congrArg Ground.equivocatingProposalInject ground) (R.forward p j)
  clock := rfl
  linked := linked.addForward (ground_view ground) sender follower unread (Or.inr still)
  tallied := tallied.append []
  keys := keys_addForward (ground_view ground) j
  kept := fun _ handled => handled
  recorded := id
  spawned := by simp
  completed := fun full => absurd full still
  sent := by simp

theorem counts_follows (full : R.Complete z (n.addForward (R.forward p j)).links)
    (other : i ≠ R.common.leader) : CountsForward p z R i j n pending
      ((n.addForward (R.forward p j)).addForwardedBlock p (R.ext p (R.forward p j)))
      [.vote (R.ext p (R.forward p j))] [] := by
  have appended := linked.addForwardedBlock ground sender follower unread other full
  obtain ⟨sameGround,sameClock,sameTally,sameForwards⟩ := addForwardedBlock_parts p
    (n.addForward (R.forward p j)) (R.ext p (R.forward p j))
  have counted := addForward_ground (congrArg Ground.equivocatingProposalInject ground) (R.forward p j)
  have records := appended.follows other
  rw [if_pos (show R.Complete z _ by rw [Complete, SyncHS.links, sameForwards]; exact full)] at records
  exact {
    ground := sameGround.trans counted
    clock := sameClock
    linked := appended
    tallied := by rw [sameTally]; exact tallied.append _
    keys := by rw [sameForwards, keys_addForward (ground_view ground)]
    kept := by rw [sameTally]; exact fun _ handled => handled
    recorded := fun _ => records
    spawned := fun job member => Or.inl ⟨other,List.mem_singleton.mp member⟩
    completed := fun _ => Or.inl List.mem_cons_self
    sent := by simp }

theorem counts_leads (inside : i < z.size) (leader : i = R.common.leader) :
    CountsForward p z R i j n pending ((n.addForward (R.forward p j)).voted (z.config i))
      [.voteChannel (R.vote p i)] [.broadcast (.vote (R.vote p i))] := by
  have credited : ((n.addForward (R.forward p j)).voted (z.config i)).tally = R.credit n.tally i := by
    rw [credit, ← ground_view ground]
    rfl
  exact {
    ground := addForward_ground (congrArg Ground.equivocatingProposalInject ground) (R.forward p j)
    clock := rfl
    linked := linked.addForward (ground_view ground) sender follower unread (Or.inl leader)
    tallied := credited ▸ (tallied.credit inside).append _
    keys := keys_addForward (ground_view ground) j
    kept := fun _ handled => credited ▸ handled.credit i
    recorded := id
    spawned := fun job member => Or.inr (List.mem_singleton.mp member)
    completed := fun _ => Or.inr ⟨List.mem_cons_self,List.mem_cons_self⟩
    sent := fun o member => Or.inr (Or.inr (List.mem_singleton.mp member)) }

end Counting

theorem forwardProposalHandler_counts_forward (laws : p.Laws) (good : R.Good p z)
    (active : R.Active p z i node) (inside : i < z.size) (sender : j < z.size)
    (follower : j ≠ R.common.leader) (unread : ¬R.Complete z node.state.links) {pending : List Job}
    (tallied : R.Tallied p z node.state.tally pending) :
    ∃ n' jobs sends, forwardProposalHandler p (z.config i) node.state (R.forward p j) =
      some (n',⟨jobs,sends,[]⟩) ∧ CountsForward p z R i j node.state pending n' jobs sends := by
  have ground := active.ground
  have unflagged := congrArg Ground.equivocatingProposalInject ground
  have complete := complete_addForward (p := p) (z := z) (ground_view ground) j
  have ran := forwardProposalHandler_eq laws good active.reads unflagged active.linked.reference inside sender
  split at ran
  next short =>
    exact ⟨_,_,_,ran,counts_short ground active.linked tallied sender follower unread
      fun full => complete.mp full short⟩
  next long =>
    split at ran
    next other =>
      exact ⟨_,_,_,ran,counts_follows ground active.linked tallied sender follower unread
        (complete.mpr long) other⟩
    next leads =>
      exact ⟨_,_,_,ran,counts_leads ground active.linked tallied sender follower unread inside
        (not_not.mp leads)⟩

theorem proposeChannel_works (laws : p.Laws) (good : R.Good p z) (active : R.Active p z i node)
    (inside : i < z.size) (sender : j < z.size) (follower : j ≠ R.common.leader)
    (found : node.pending[index]? = some (.proposeChannel (R.forward p j)))
    (reading : takes (z.config i) node.state (.proposeChannel (R.forward p j)) = true) :
    R.Works p z i node index order := by
  have unread : ¬R.Complete z node.state.links := by
    have short := of_decide_eq_true reading
    rw [SyncHS.readsForwards, active.reads.view, Setting.config_card inside] at short
    exact not_le.mpr short
  have before := active.tallied.work found rfl []
  rw [List.append_nil] at before
  obtain ⟨n',jobs,sends,ran,counts⟩ :=
    forwardProposalHandler_counts_forward laws good active inside sender follower unread before
  refine ⟨_,_,Node.step_work found ran,?_,?_⟩
  · refine active.work found nofun counts.ground counts.linked counts.tallied counts.clock ?_ ?_
    · intro job member
      rcases counts.spawned job member with ⟨other,rfl⟩ | rfl
      · exact ⟨other,_,R.carries_forward p j,rfl⟩
      · exact ⟨i,inside,rfl⟩
    · intro member
      rcases counts.spawned _ member with ⟨_,same⟩ | same <;> cases same
  · refine .of_work found ?_ ?_ counts.kept nofun nofun nofun counts.recorded nofun ?_ counts.sent
    · intro k member
      rw [counts.keys]
      exact Finset.mem_insert_of_mem member
    · intro k same
      obtain rfl : j = k := congrArg Proposal.forwardSender (Job.proposeChannel.inj same)
      rw [counts.keys]
      exact Finset.mem_insert_self _ _
    · intro full
      rcases counts.completed full with waiting | ⟨waiting,sent⟩
      · exact Or.inr (Or.inl ⟨_,R.carries_forward p j,List.mem_append_right _ waiting⟩)
      · exact Or.inr (Or.inr ⟨List.mem_append_right _ waiting,sent⟩)

theorem startRound_follower (mode : z.timerMode = .plain ∨ z.timerMode = .withhold)
    (normal : ¬(z.timerMode = .withhold ∧ n.leader % 2 ≠ 0)) (follower : i ≠ n.leader)
    (off : z.timerMode = .plain → n.withholdingProposalInject = false) :
    startRound p (z.config i) n = some ({ n with withholdingProposalInject := false },.none) := by
  have other : ¬n.leader = (z.config i).id := follower.symm
  rcases mode with plain | withhold
  · simp only [startRound, Setting.config_timerMode, plain, if_neg other]
    rw [← off plain]
  · have even : ¬n.leader % 2 ≠ 0 := fun odd => normal ⟨withhold,odd⟩
    simp only [startRound, Setting.config_timerMode, withhold, if_neg other, if_neg even]

theorem round_works (mode : z.timerMode = .plain ∨ z.timerMode = .withhold)
    (normal : ¬(z.timerMode = .withhold ∧ R.common.leader % 2 ≠ 0)) (active : R.Active p z i node)
    (found : node.pending[index]? = some .round) : R.Works p z i node index order := by
  have follower : i ≠ R.common.leader := active.jobs _ (List.mem_of_getElem? found)
  have leader := active.reads.leader
  have ran : startRound p (z.config i) node.state =
      some ({ node.state with withholdingProposalInject := false },.none) :=
    startRound_follower mode (leader ▸ normal) (leader ▸ follower) fun plain =>
      active.unwithheld (Or.inl plain)
  have clocked := active.clocked.work index (show Job.round ∉ [] by simp)
  refine ⟨_,_,Node.step_work found ran,⟨active.ground,active.linked,active.tallied.work found rfl _,?_,?_,
    active.led,?_⟩,?_⟩
  · exact ⟨clocked.tokens,clocked.rounds,clocked.enough⟩
  · exact fun _ => rfl
  · intro job member
    exact (of_mem_work member).elim (active.jobs job) (by simp)
  · exact .of_work found (fun _ h => h) nofun (fun _ h => h) nofun nofun nofun id nofun Or.inl (by simp)

theorem Active.works (laws : p.Laws) (good : R.Good p z)
    (mode : z.timerMode = .plain ∨ z.timerMode = .withhold)
    (normal : ¬(z.timerMode = .withhold ∧ R.common.leader % 2 ≠ 0)) (active : R.Active p z i node)
    (inside : i < z.size) (found : node.pending[index]? = some J)
    (taken : takes (z.config i) node.state J = true) : R.Works p z i node index order := by
  have allowed := active.jobs J (List.mem_of_getElem? found)
  cases J with
  | round => exact round_works mode normal active found
  | proposed x =>
    obtain ⟨_,rfl⟩ := allowed
    exact proposed_works active found
  | forward x =>
    obtain ⟨_,rfl⟩ := allowed
    exact forward_works laws good active inside found
  | proposeChannel x =>
    obtain ⟨j,sender,follower,rfl⟩ := allowed
    exact proposeChannel_works laws good active inside sender follower found taken
  | vote ep =>
    obtain ⟨_,x,carries,rfl⟩ := allowed
    exact vote_works active inside carries found
  | voteChannel v =>
    obtain ⟨j,voter,rfl⟩ := allowed
    exact voteChannel_works laws good active voter found
  | addCert cert height =>
    obtain ⟨rfl,certifies⟩ := allowed
    exact addCert_works good active certifies found
  | maliPropseChannel | eqEvidenceChannel | maliProEvidenceChannel | maliVoteEvidenceChannel
  | sendEqProEvidence | sendMalivoteEvidence => exact allowed.elim

end Jobs

/-! ## Commands and deliveries -/

theorem Moves.of_grow {node' : Node} (links : node'.state.links = node.state.links)
    (tally : node'.state.tally = node.state.tally) (more : ∀ job ∈ node.pending, job ∈ node'.pending) :
    R.Moves p z i node node' [] := by
  have forwards : node'.state.fpropMap = node.state.fpropMap := congrArg Links.fpropMap links
  have records : node'.state.proposalMap = node.state.proposalMap := congrArg Links.proposalMap links
  refine ⟨?_,?_,?_,?_,?_,?_,?_,by simp⟩
  · exact fun j => Or.imp (more _) (forwards ▸ id)
  · exact fun j => Or.imp (more _) (tally ▸ id)
  · exact fun waiting => Or.inl (more _ waiting)
  · exact fun waiting => Or.inl (more _ waiting)
  · exact fun same => records.trans same
  · rintro ⟨x,carries,waiting⟩
    exact Or.inl ⟨x,carries,more _ waiting⟩
  · exact fun full => Or.inl (links ▸ full)

end Round

def SyncHS.setClock (n : SyncHS) (c : Clock) : SyncHS :=
  { n with
    gcallFuncFinish := c.gcallFuncFinish
    syncChannel := c.syncChannel
    timers := c.timers
    pendingCommands := c.pendingCommands
    withholdingProposalInject := c.withholdingProposalInject }

/-- What a command does to the clock: it may start the round that the token stands for. -/
structure Ticked (z : Setting) (old new : Clock) (pending jobs : List Job) : Prop where
  clocked : Clocked z new (pending ++ jobs)
  flag : new.withholdingProposalInject = old.withholdingProposalInject
  started : jobs = [] ∧ new.timers = old.timers ∨ jobs = [.round] ∧ old.timers = 0 ∧ new.timers = 1

theorem Clocked.more {z : Setting} {c : Clock} {pending : List Job} (clocked : Clocked z c pending)
    (cmd : Bytes) : Ticked z c { c with pendingCommands := c.pendingCommands ++ [cmd] } pending [] := by
  refine ⟨⟨clocked.tokens,?_,?_⟩,rfl,Or.inl ⟨rfl,rfl⟩⟩
  · rw [List.append_nil]
    exact clocked.rounds
  · intro member
    rw [List.append_nil] at member
    have enough := clocked.enough member
    rw [List.length_append]
    omega

theorem Clocked.start {z : Setting} {c : Clock} {pending : List Job} (clocked : Clocked z c pending)
    (idle : c.timers = 0) (commands : List Bytes) (enough : z.blockSize ≤ commands.length) :
    Ticked z c ⟨false,0,1,commands,c.withholdingProposalInject⟩ pending [.round] := by
  refine ⟨⟨rfl,?_,fun _ => enough⟩,rfl,Or.inr ⟨rfl,idle,rfl⟩⟩
  have rounds := clocked.rounds
  rw [List.count_append]
  simp only [List.count_singleton_self]
  omega

theorem command_ticks {z : Setting} {n : SyncHS} {pending : List Job} (i : Nat)
    (clocked : Clocked z n.clock pending) (cmd : Bytes) :
    ∃ c jobs, addCmdsAndStartTimerIfSufficientCommands (z.config i) n cmd =
      some (n.setClock c,⟨jobs,[],[]⟩) ∧ Ticked z n.clock c pending jobs := by
  have tokens : (if n.gcallFuncFinish then 1 else 0) + n.syncChannel + n.timers = 1 := clocked.tokens
  simp only [addCmdsAndStartTimerIfSufficientCommands, startTimer]
  by_cases few : (n.pendingCommands ++ [cmd]).length < (z.config i).blockSize
  · exact ⟨_,_,if_pos few,clocked.more cmd⟩
  · have enough : z.blockSize ≤ (n.pendingCommands ++ [cmd]).length := Nat.le_of_not_lt few
    simp only [if_neg few]
    cases first : n.gcallFuncFinish with
    | true =>
      simp only [first, if_true] at tokens
      have idle : n.timers = 0 := by omega
      have spent : n.syncChannel = 0 := by omega
      refine ⟨_,_,?_,clocked.start idle _ enough⟩
      simp [spent,idle,SyncHS.setClock,SyncHS.clock]
    | false =>
      simp only [first, Bool.false_eq_true, if_false] at tokens ⊢
      by_cases token : n.syncChannel = 1
      · have idle : n.timers = 0 := by omega
        refine ⟨_,_,?_,clocked.start idle _ enough⟩
        simp [token,idle,SyncHS.setClock,SyncHS.clock]
      · refine ⟨_,_,?_,clocked.more cmd⟩
        simp only [token, if_false, List.append_nil, SyncHS.setClock, SyncHS.clock, first]

theorem Unwithheld.ticked {z : Setting} {old new : Clock} {pending jobs : List Job}
    (unwithheld : Unwithheld z old pending) (ticked : Ticked z old new pending jobs) :
    Unwithheld z new (pending ++ jobs) := by
  rw [Unwithheld, ticked.flag]
  rintro (plain | ⟨running,noRound⟩)
  · exact unwithheld (Or.inl plain)
  · rcases ticked.started with ⟨rfl,same⟩ | ⟨rfl,_,_⟩
    · rw [List.append_nil] at noRound
      exact unwithheld (Or.inr ⟨same.symm.trans running,noRound⟩)
    · simp at noRound

section Ticking

variable {z : Setting} {old new : Clock} {pending jobs : List Job} (ticked : Ticked z old new pending jobs)

include ticked

theorem Ticked.only (only : ∀ job ∈ pending, job = .round) : ∀ job ∈ pending ++ jobs, job = .round := by
  intro job member
  rcases List.mem_append.mp member with before | started
  · exact only job before
  · rcases ticked.started with ⟨rfl,_⟩ | ⟨rfl,_⟩
    · simp at started
    · exact List.mem_singleton.mp started

theorem Ticked.waits (waits : old.timers = 1 → .round ∈ pending) (running : new.timers = 1) :
    .round ∈ pending ++ jobs := by
  rcases ticked.started with ⟨rfl,same⟩ | ⟨rfl,_⟩
  · exact List.mem_append_left [] (waits (same.symm.trans running))
  · exact List.mem_append_right _ List.mem_cons_self

end Ticking

theorem Node.step_command {p : Platform} {cfg : NodeConfig} {node : Node} {n' : SyncHS} {cmd : Bytes}
    {jobs : List Job} (ran : addCmdsAndStartTimerIfSufficientCommands cfg node.state cmd =
      some (n',⟨jobs,[],[]⟩)) :
    node.step p cfg (.command cmd) = some (⟨n',node.pending ++ jobs,node.acked⟩,[]) := by
  simp [Node.step,Node.apply,ran]

theorem Round.Active.command {p : Platform} {z : Setting} {R : Round} {i : Nat} {node : Node}
    (active : R.Active p z i node) (cmd : Bytes) :
    ∃ node', node.step p (z.config i) (.command cmd) = some (node',[]) ∧ R.Active p z i node' ∧
      R.Moves p z i node node' [] := by
  obtain ⟨c,jobs,ran,ticked⟩ := command_ticks i active.clocked cmd
  refine ⟨_,Node.step_command ran,⟨active.ground,active.linked,active.tallied.append jobs,ticked.clocked,
    active.unwithheld.ticked ticked,?_,?_⟩,?_⟩
  · intro leader
    have running : node.state.clock.timers = 1 := active.led leader
    rcases ticked.started with ⟨_,same⟩ | ⟨_,idle,_⟩
    · exact same.trans running
    · exact absurd (idle.symm.trans running) (by decide)
  · intro job member
    rcases List.mem_append.mp member with old | new
    · exact active.jobs job old
    · rcases ticked.started with ⟨rfl,_⟩ | ⟨rfl,idle,_⟩
      · simp at new
      · obtain rfl := List.mem_singleton.mp new
        -- the leader's timer is running, so the token was not its own
        intro leader
        exact absurd (idle.symm.trans (active.led leader)) (by decide)
  · exact .of_grow rfl rfl fun job member => List.mem_append_left jobs member

theorem Round.Active.receive {p : Platform} {z : Setting} {R : Round} {i : Nat} {node : Node} {jobs : List Job}
    (active : R.Active p z i node) (allowed : ∀ job ∈ jobs, R.Allows p z i job) (noRound : .round ∉ jobs) :
    R.Active p z i ⟨node.state,node.pending ++ jobs,node.acked⟩ ∧
      R.Moves p z i node ⟨node.state,node.pending ++ jobs,node.acked⟩ [] := by
  refine ⟨⟨active.ground,active.linked,active.tallied.append jobs,⟨active.clocked.tokens,?_,?_⟩,?_,
    active.led,?_⟩,.of_grow rfl rfl fun job member => List.mem_append_left jobs member⟩
  · rw [List.count_append, List.count_eq_zero_of_not_mem noRound, Nat.add_zero]
    exact active.clocked.rounds
  · intro member
    exact active.clocked.enough ((List.mem_append.mp member).resolve_right noRound)
  · rintro (plain | ⟨running,noRounds⟩)
    · exact active.unwithheld (Or.inl plain)
    · exact active.unwithheld (Or.inr ⟨running,fun member => noRounds (List.mem_append_left jobs member)⟩)
  · intro job member
    exact (List.mem_append.mp member).elim (active.jobs job) (allowed job)

end ReputationSMR
