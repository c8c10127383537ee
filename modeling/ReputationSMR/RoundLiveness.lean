import ReputationSMR.ForwardsOnce
import ReputationSMR.RoundStarts
import ReputationSMR.Quiescence

/-! Rounds without faults complete. While some node has not ended a view that all nodes have
started, there is something to do that is in lock step; and what the nodes do without the
clients comes to an end. So every schedule leads to the end of the view at every node. -/
namespace ReputationSMR

open Wire FiniteMap

/-- What the nodes do without the clients and without Byzantine nodes. -/
def SystemEvent.Autonomous : SystemEvent → Prop
  | .deliver _ | .work _ _ _ | .callback _ => True
  | .command _ _ | .connect _ | .inject _ _ => False

instance : DecidablePred SystemEvent.Autonomous := fun e =>
  match e with
  | .deliver _ | .work _ _ _ | .callback _ => isTrue trivial
  | .command _ _ | .connect _ | .inject _ _ => isFalse id

def System.Left (s : System) (i view : Nat) : Prop := ∃ e ∈ s.log, e.node = i ∧ e.view = view

section Progress

variable {p : Platform} {z : Setting} {s t : System} {C : Common} {i : Nat}

/-- A step in lock step is possible. -/
def CanMove (p : Platform) (z : Setting) (s : System) : Prop :=
  ∃ e : SystemEvent, e.Autonomous ∧ s.enabled z.cluster p e ∧ LockStep z.cluster s e

theorem Ready.finished {node : Node} (ready : Ready p z C node) : node.finished := by
  refine ⟨?_,ready.pending⟩
  rw [ready.running]
  exact Nat.one_pos

theorem Aligned.late_moves (aligned : Aligned p z s C) (inside : i < z.size)
    (outside : (s.nodes i).state.view ≠ C.view) : CanMove p z s := by
  have ready := aligned.ready i inside outside
  have late := ready.view
  refine ⟨.callback i,trivial,⟨Setting.honest.mpr inside,ready.finished.1⟩,?_,?_⟩
  · intro j honest
    have within := Setting.honest.mp ((Cluster.mem_honestNodes _ _).mp honest)
    by_cases there : (s.nodes j).state.view = C.view
    · exact Or.inl (by omega)
    · have other := (aligned.ready j within there).view
      exact Or.inr ⟨by omega,(aligned.ready j within there).finished⟩
  · intro x member view tagged
    cases aligned.phase with
    | waiting _ silent _ | withheld _ silent _ => simp [silent] at member
    | running R common _ _ _ _ accounting =>
      subst common
      obtain rfl := Option.some.inj ((accounting.packets x member).tag.symm.trans tagged)
      omega

theorem CanMove.of_finished (inside : i < z.size) (entered : ∀ j < z.size, (s.nodes j).state.view = C.view)
    (silent : s.net = []) (finished : ∀ j < z.size, (s.nodes j).finished) : CanMove p z s := by
  refine ⟨.callback i,trivial,⟨Setting.honest.mpr inside,(finished i inside).1⟩,?_,by simp [silent]⟩
  intro j honest
  have within := Setting.honest.mp ((Cluster.mem_honestNodes _ _).mp honest)
  exact Or.inr ⟨(entered j within).trans (entered i inside).symm,finished j within⟩

theorem CanMove.of_pending (inside : i < z.size) {job : Job} (member : job ∈ (s.nodes i).pending)
    (taken : takes (z.config i) (s.nodes i).state job = true) : CanMove p z s := by
  obtain ⟨index,found⟩ := List.mem_iff_getElem?.mp member
  refine ⟨.work i index [],trivial,⟨Setting.honest.mpr inside,?_⟩,trivial⟩
  simp only [Node.enabled, found, Option.any_some]
  exact taken

/-- A channel that is not read belongs to a complete set, and then it is empty. -/
theorem Round.Active.reads_all {R : Round} (good : R.Good p z) (active : R.Active p z i (s.nodes i))
    (inside : i < z.size) (once : ∀ j < z.size, j ≠ R.common.leader → s.copies R.common.leader R.common.view j i ≤ 1)
    {job : Job} (member : job ∈ (s.nodes i).pending) : takes (z.config i) (s.nodes i).state job = true := by
  have allowed := active.jobs job member
  cases job with
  | proposeChannel x =>
    obtain ⟨j,sender,follower,rfl⟩ := allowed
    by_contra unread
    have full : R.Complete z (s.nodes i).state.links := by
      have short := of_decide_eq_false (Bool.eq_false_iff.mpr unread)
      rw [SyncHS.readsForwards, active.reads.view, Setting.config_card inside] at short
      exact not_lt.mp short
    -- the set has room for the followers only, so the sender is in it already
    have counted : j ∈ (row (s.nodes i).state.fpropMap R.common.view).keys := by
      have within : (row (s.nodes i).state.fpropMap R.common.view).keys ⊆
          (Finset.range z.size).erase R.common.leader := by
        intro k member
        obtain ⟨sender,follower⟩ := active.linked.senders k member
        exact Finset.mem_erase.mpr ⟨follower,Finset.mem_range.mpr sender⟩
      have card : ((Finset.range z.size).erase R.common.leader).card ≤
          (row (s.nodes i).state.fpropMap R.common.view).keys.card := by
        rw [Finset.card_erase_of_mem (Finset.mem_range.mpr good.leader_lt), Finset.card_range]
        exact full
      rw [Finset.eq_of_subset_of_card_le within card]
      exact Finset.mem_erase.mpr ⟨follower,Finset.mem_range.mpr sender⟩
    have waiting : 0 < (s.nodes i).pending.countP (Job.sentBy j) :=
      List.countP_pos_iff.mpr ⟨_,member,beq_self_eq_true j⟩
    have copies := once j sender follower
    simp only [System.copies, Node.holds, if_pos counted] at copies
    omega
  | round | proposed _ | forward _ | vote _ | voteChannel _ | addCert _ _ => rfl
  | maliPropseChannel | eqEvidenceChannel | maliProEvidenceChannel | maliVoteEvidenceChannel
  | sendEqProEvidence | sendMalivoteEvidence => exact allowed.elim

theorem Aligned.moves (several : 2 ≤ z.size) (aligned : Aligned p z s C) (unrepeated : Unrepeated z s)
    (entered : ∀ j < z.size, (s.nodes j).state.view = C.view)
    (running : ∀ j < z.size, 0 < (s.nodes j).state.timers) : CanMove p z s := by
  have first : 0 < z.size := by omega
  have once {c : Clock} {pending : List Job} (clocked : Clocked z c pending) (running : 0 < c.timers) :
      c.timers = 1 := by
    have tokens := clocked.tokens
    omega
  cases aligned.phase with
  | waiting _ _ waits =>
    have leads := aligned.good.leader_lt first
    have leader := waits C.leader leads (entered _ leads)
    exact .of_pending leads (leader.led rfl (once leader.clocked (running _ leads))) rfl
  | withheld _ silent waits =>
    by_cases all : ∀ j < z.size, (s.nodes j).pending = []
    · exact .of_finished first entered silent fun j within => ⟨running j within,all j within⟩
    · push Not at all
      obtain ⟨j,within,busy⟩ := all
      obtain ⟨job,member⟩ := List.exists_mem_of_ne_nil _ busy
      obtain rfl := (waits j within (entered j within)).rounds job member
      exact .of_pending within member rfl
  | running R common good _ active leads accounting =>
    subst common
    by_cases silent : s.net = []
    · by_cases all : ∀ j < z.size, (s.nodes j).pending = []
      · exact .of_finished first entered silent fun j within => ⟨running j within,all j within⟩
      · push Not at all
        obtain ⟨j,within,busy⟩ := all
        obtain ⟨job,member⟩ := List.exists_mem_of_ne_nil _ busy
        refine .of_pending within member ((active j within (entered j within)).reads_all good within ?_ member)
        exact fun k sender follower => unrepeated.once several aligned leads sender follower within
    · refine ⟨.deliver 0,trivial,List.length_pos_iff.mpr silent,?_⟩
      intro x found view tagged j honest
      have packet := accounting.packets x (List.mem_of_getElem? found)
      obtain rfl := Option.some.inj (packet.tag.symm.trans tagged)
      exact (entered j (Setting.honest.mp ((Cluster.mem_honestNodes _ _).mp honest))).ge

end Progress

/-! ## The end of a schedule -/

/-- The timers that run. -/
def System.timers (size : Nat) (s : System) : Nat := ∑ i ∈ Finset.range size, (s.nodes i).state.timers

/-- What bounds the steps that the nodes take by themselves: the weight of messages and pending
work, and the timers. -/
def System.energy (z : Setting) (s : System) : Nat := s.weight z.cluster + s.timers z.size

section Ending

variable {p : Platform} {z : Setting} {s t : System} {C : Common} {e : SystemEvent} {i view : Nat}

theorem CallbackStep.timers {cfg : NodeConfig} {n n' : SyncHS} {effect : Effect} (step : CallbackStep p cfg n n' effect) :
    n'.timers = n.timers := by
  cases step <;> rfl

/-- A step of the nodes by themselves: one of them moves, and its timer runs on unless its callback
runs. -/
structure StepsAlone (s : System) (e : SystemEvent) (t : System) (i : Nat) : Prop where
  other : ∀ k, k ≠ i → t.nodes k = s.nodes k
  log : ∀ e ∈ s.log, e ∈ t.log
  runs : ((t.nodes i).state.view = (s.nodes i).state.view ∧ (t.nodes i).state.timers = (s.nodes i).state.timers ∧
    ∀ k, e ≠ .callback k) ∨
    e = .callback i ∧ (t.nodes i).state.timers = (s.nodes i).state.timers - 1 ∧ t.Left i (s.nodes i).state.view

theorem System.steps_alone {c : Cluster} {e : SystemEvent} (autonomous : e.Autonomous)
    (stepped : s.step c p e = some t) : ∃ i, StepsAlone s e t i := by
  cases System.step_cases stepped with
  | commanded _ _ _ _ _ | connected _ _ _ _ | injected _ _ => exact autonomous.elim
  | delivered k x node sends found case =>
    refine ⟨x.dest,fun j => moved_other c { s with net := s.net.eraseIdx k } x.dest node sends,fun _ kept => kept,Or.inl ?_⟩
    rw [moved_self]
    cases case with
    | received _ => exact ⟨rfl,rfl,fun _ => SystemEvent.noConfusion⟩
  | worked i index order node sends case =>
    refine ⟨i,fun j => moved_other c s i node sends,fun _ kept => kept,Or.inl ?_⟩
    rw [moved_self]
    cases case with
    | worked _ _ _ _ _ _ _ case => exact ⟨case.informed.view,congrArg (fun signals => signals.2.2) case.startSignals,
        fun _ => SystemEvent.noConfusion⟩
  | calledBack i node sends case =>
    refine ⟨i,fun j => moved_other c s i node sends,fun _ kept => List.mem_append_left _ kept,Or.inr ⟨rfl,?_,?_⟩⟩
    · change ((s.moved c i node sends).nodes i).state.timers = _
      rw [moved_self]
      cases case with
      | calledBack _ _ case => exact case.timers
    · exact ⟨_,List.mem_append_right _ List.mem_cons_self,rfl,rfl⟩

theorem StepsAlone.timers_le (alone : StepsAlone s e t i) (k : Nat) : (t.nodes k).state.timers ≤ (s.nodes k).state.timers := by
  by_cases other : k = i
  · subst other
    obtain ⟨_,same,_⟩ | ⟨_,less,_⟩ := alone.runs <;> omega
  · rw [alone.other k other]

/-- Every step of the nodes by themselves costs energy. -/
theorem System.energy_lowers {e : SystemEvent} (autonomous : e.Autonomous) (enabled : s.enabled z.cluster p e)
    (stepped : s.step z.cluster p e = some t) : t.energy z + 1 ≤ s.energy z := by
  have apart : ∀ i ∈ z.cluster.honestNodes, i ∉ (z.cluster.config i).pMap := fun i _ => Finset.notMem_erase i _
  have paid := System.pays (c := z.cluster) (complete_regular ..) apart e enabled stepped
  obtain ⟨i,alone⟩ := System.steps_alone autonomous stepped
  have timers : t.timers z.size ≤ s.timers z.size := Finset.sum_le_sum fun k _ => alone.timers_le k
  simp only [energy]
  cases e with
  | command _ _ | connect _ | inject _ _ => exact autonomous.elim
  | deliver _ | work _ _ _ =>
    simp only [SystemEvent.handles, SystemEvent.cost] at paid
    omega
  | callback j =>
    -- a callback handles nothing, but it uses its timer up
    have fewer : t.timers z.size < s.timers z.size := by
      refine Finset.sum_lt_sum (fun k _ => alone.timers_le k) ⟨j,Finset.mem_range.mpr (Setting.honest.mp enabled.1),?_⟩
      have running : 0 < (s.nodes j).state.timers := enabled.2
      obtain ⟨_,_,silent⟩ | ⟨same,less,_⟩ := alone.runs
      · exact absurd rfl (silent j)
      · obtain rfl := SystemEvent.callback.inj same
        omega
    simp only [SystemEvent.handles, SystemEvent.cost] at paid
    omega

/-- What a node has made of the view: it is in it with a timer that runs, or it has ended it. -/
def System.Attends (s : System) (view i : Nat) : Prop :=
  ((s.nodes i).state.view = view ∧ 0 < (s.nodes i).state.timers) ∨ s.Left i view

theorem StepsAlone.attends (alone : StepsAlone s e t i) {view k : Nat} (attends : s.Attends view k) : t.Attends view k := by
  rcases attends with ⟨within,running⟩ | ⟨e,logged,ended⟩
  · by_cases other : k = i
    · subst other
      obtain ⟨same,timers,_⟩ | ⟨_,_,left⟩ := alone.runs
      · exact Or.inl ⟨same.trans within,timers ▸ running⟩
      · exact Or.inr (within ▸ left)
    · exact Or.inl (by rw [alone.other k other]; exact ⟨within,running⟩)
  · exact Or.inr ⟨e,alone.log e logged,ended⟩

theorem Aligned.attended_moves (several : 2 ≤ z.size) (aligned : Aligned p z s C) (unrepeated : Unrepeated z s)
    (attends : ∀ k < z.size, s.Attends view k) (inside : i < z.size) (remains : ¬s.Left i view) : CanMove p z s := by
  by_cases outside : ∃ k < z.size, (s.nodes k).state.view ≠ C.view
  · obtain ⟨k,within,late⟩ := outside
    exact aligned.late_moves within late
  · push Not at outside
    have here : C.view = view := (outside i inside).symm.trans ((attends i inside).resolve_right remains).1
    refine aligned.moves several unrepeated outside fun k within => ?_
    refine ((attends k within).resolve_right ?_).2
    rintro ⟨e,logged,_,ended⟩
    have earlier := (aligned.ended e logged).2.1
    omega

/-- The fault-free invariants together. -/
def Orderly (p : Platform) (z : Setting) (s : System) : Prop := (∃ C, Aligned p z s C) ∧ Unrepeated z s

theorem start_orderly (p : Platform) (z : Setting) : Orderly p z (System.start z.cluster) := by
  refine ⟨⟨_,start_aligned p z⟩,Or.inl ⟨rfl,?_⟩⟩
  intro k within job member
  exact absurd member List.not_mem_nil

theorem Orderly.step (laws : p.Laws) (several : 2 ≤ z.size) (mode : z.timerMode = .plain ∨ z.timerMode = .withhold)
    (orderly : Orderly p z s) (enabled : s.enabled z.cluster p e) (lockStep : LockStep z.cluster s e)
    (stepped : s.step z.cluster p e = some t) : Orderly p z t := by
  obtain ⟨⟨C,aligned⟩,unrepeated⟩ := orderly
  refine ⟨?_,unrepeated.step several mode aligned enabled lockStep stepped⟩
  obtain ⟨u,next,advanced⟩ := aligned.step laws several mode enabled lockStep
  obtain rfl := Option.some.inj (stepped.symm.trans next)
  exact advanced

/-- Once all nodes have started a view, it takes a bounded number of steps of the nodes by
themselves, in whatever order lock step admits: when no step is left, every node has ended the
view, and consistently. -/
theorem started_rounds_complete (laws : p.Laws) (several : 2 ≤ z.size)
    (mode : z.timerMode = .plain ∨ z.timerMode = .withhold) {trace later : List SystemEvent}
    (run : ((systemMachine z.cluster p).restrict (LockStep z.cluster)).Run (System.start z.cluster) trace s)
    (started : ∀ i < z.size, (s.nodes i).state.view = view ∧ 0 < (s.nodes i).state.timers)
    (schedule : ((systemMachine z.cluster p).restrict fun s e => LockStep z.cluster s e ∧ e.Autonomous).Run s later t) :
    later.length ≤ s.energy z ∧
    ((∀ e : SystemEvent, e.Autonomous → t.enabled z.cluster p e → LockStep z.cluster t e → t.step z.cluster p e = none) →
      ∀ i < z.size, ∃ e ∈ t.log, e.node = i ∧ e.view = view ∧ Consistent p z e) := by
  have orderly : Orderly p z s := by
    refine run.invariant (start_orderly p z) ?_
    intro s e t orderly admitted
    exact orderly.step laws several mode admitted.1 admitted.2
  obtain ⟨⟨⟨C,aligned⟩,unrepeated⟩,attends⟩ : Orderly p z t ∧ ∀ k < z.size, t.Attends view k := by
    refine schedule.invariant (I := fun t => Orderly p z t ∧ ∀ k < z.size, t.Attends view k)
      ⟨orderly,fun k within => Or.inl (started k within)⟩ ?_
    rintro s e t ⟨orderly,attends⟩ ⟨enabled,lockStep,autonomous⟩ stepped
    obtain ⟨i,alone⟩ := System.steps_alone autonomous stepped
    exact ⟨orderly.step laws several mode enabled lockStep stepped,fun k within => alone.attends (attends k within)⟩
  constructor
  · have spent := schedule.account (System.energy z) (fun _ => 1) (fun _ => 0) (by
      intro s e t admitted
      exact System.energy_lowers admitted.2.2 admitted.1)
    simp only [List.map_const', List.sum_replicate, smul_eq_mul, mul_one, mul_zero] at spent
    omega
  · intro rest i inside
    by_contra remains
    have stays : ¬t.Left i view := by
      rintro ⟨e,logged,same,ended⟩
      exact remains ⟨e,logged,same,ended,(aligned.ended e logged).1.consistent laws⟩
    obtain ⟨e,autonomous,enabled,lockStep⟩ := aligned.attended_moves several unrepeated attends inside stays
    obtain ⟨u,next,_⟩ := aligned.step laws several mode enabled lockStep
    exact Option.some_ne_none u (next.symm.trans (rest e autonomous enabled lockStep))

end Ending

theorem two_node_round_completes : ∃ s : System, ∀ i < 2, ∃ e ∈ s.log, e.node = i ∧ e.view = 1 ∧
    Consistent transparent ⟨2,1,false,.plain⟩ e := by
  -- the commands start the view, and the rest of the round is the schedule
  obtain ⟨t,whole,silent,idle⟩ : ∃ t, ((systemMachine (Setting.cluster ⟨2,1,false,.plain⟩) transparent).restrict
      (LockStep (Setting.cluster ⟨2,1,false,.plain⟩))).Run (System.start (Setting.cluster ⟨2,1,false,.plain⟩))
      (twoNodeRound.take 2 ++ twoNodeRound.drop 2) t ∧
      t.net = [] ∧ ∀ i < 2, (t.nodes i).pending = [] ∧ (t.nodes i).state.timers = 0 := by
    apply Guarded.Machine.reaches
    decide +kernel
  obtain ⟨u,commanded,started⟩ : ∃ u, ((systemMachine (Setting.cluster ⟨2,1,false,.plain⟩) transparent).restrict
      (LockStep (Setting.cluster ⟨2,1,false,.plain⟩))).Run (System.start (Setting.cluster ⟨2,1,false,.plain⟩))
      (twoNodeRound.take 2) u ∧ ∀ i < 2, (u.nodes i).state.view = 1 ∧ 0 < (u.nodes i).state.timers := by
    apply Guarded.Machine.reaches
    decide +kernel
  obtain ⟨middle,before,after⟩ := whole.split
  obtain rfl := commanded.functional before
  have completes := started_rounds_complete (z := ⟨2,1,false,.plain⟩) transparent_laws le_rfl (.inl rfl) commanded started
    (after.restricted (by decide))
  refine ⟨t,completes.2 fun e autonomous enabled lockStep => ?_⟩
  cases e with
  | command _ _ | connect _ | inject _ _ => exact autonomous.elim
  | deliver k => simp [System.enabled,silent] at enabled
  | work i index order =>
    have inside : i < 2 := Setting.honest.mp enabled.1
    simp [System.enabled,Node.enabled,(idle i inside).1] at enabled
  | callback i =>
    have inside : i < 2 := Setting.honest.mp enabled.1
    have running : 0 < (t.nodes i).state.timers := enabled.2
    rw [(idle i inside).2] at running
    exact absurd running (Nat.lt_irrefl 0)

end ReputationSMR
