import ReputationSMR.RoundSystem

/-! Replica consistency without faults. In lock step the nodes are at most one callback
apart: those that have not yet ended the previous view are ready to do so, and the
others take part in the round of the present one. -/
namespace ReputationSMR

open Wire FiniteMap

/-! ## The invariant -/

def Proposes (z : Setting) (C : Common) : Prop := ¬(z.timerMode = .withhold ∧ C.leader % 2 ≠ 0)

/-- What the nodes that have entered the view are doing. -/
inductive Phase (p : Platform) (z : Setting) (s : System) (C : Common) : Prop where
  | waiting : Proposes z C → s.net = [] →
      (∀ i < z.size, (s.nodes i).state.view = C.view → Waiting p z C i (s.nodes i)) → Phase p z s C
  | running (R : Round) : R.common = C → R.Good p z → Proposes z C →
      (∀ i < z.size, (s.nodes i).state.view = C.view → R.Active p z i (s.nodes i)) →
      (s.nodes C.leader).state.view = C.view → R.Accounting p z s → Phase p z s C
  | withheld : ¬Proposes z C → s.net = [] →
      (∀ i < z.size, (s.nodes i).state.view = C.view → Withholding p z C (s.nodes i)) → Phase p z s C

structure Ended (p : Platform) (z : Setting) (e : Completed) : Prop where
  good : e.state.common.Good p z.size
  nonzero : e.state.bc.head ≠ 0
  view : e.state.view = e.view + 1
  headCert : ∃ cert, e.state.certMap.lookup e.state.bc.head = some cert ∧
    HeadCert p z.size e.state.common cert

/-- The nodes that have not entered the view `C.view` are about to do so, with `C`. -/
structure Aligned (p : Platform) (z : Setting) (s : System) (C : Common) : Prop where
  good : C.Good p z.size
  ready : ∀ i < z.size, (s.nodes i).state.view ≠ C.view → Ready p z C (s.nodes i)
  phase : Phase p z s C
  ended : ∀ e ∈ s.log, Ended p z e ∧ e.view < C.view ∧ (e.view + 1 = C.view → e.state.common = C)
  agreed : ∀ e ∈ s.log, ∀ e' ∈ s.log, e.view = e'.view → e.state.common = e'.state.common

section Steps

variable {p : Platform} {z : Setting} {s t : System} {C : Common} {i : Nat} {node : Node}
  {sends : List Outgoing}

theorem Settles.passes {R : Round} (settles : Settles (s.nodes i) node)
    (nodes : t.nodes = Function.update s.nodes i node) (net : t.net = s.net) :
    R.Passes p z s t i node [] := by
  refine ⟨⟨nodes,fun x member => Or.inl (net ▸ member),by simp⟩,?_⟩
  exact .of_grow settles.links settles.tally fun job member => settles.pending ▸ member

theorem Phase.outside (phase : Phase p z s C) (nodes : t.nodes = Function.update s.nodes i node)
    (net : t.net = s.net) (before : (s.nodes i).state.view ≠ C.view) (after : node.state.view ≠ C.view)
    (settles : Settles (s.nodes i) node) : Phase p z t C := by
  have others (j : Nat) (here : (t.nodes j).state.view = C.view) : j ≠ i ∧ t.nodes j = s.nodes j := by
    have different : j ≠ i := by
      rintro rfl
      rw [nodes, Function.update_self] at here
      exact after here
    exact ⟨different,by rw [nodes, Function.update_of_ne different]⟩
  cases phase with
  | waiting proposes silent waits =>
    refine .waiting proposes (net.trans silent) fun j inside here => ?_
    obtain ⟨_,same⟩ := others j here
    exact same ▸ waits j inside (same ▸ here)
  | running R common good proposes active leads accounting =>
    have different : C.leader ≠ i := by
      rintro rfl
      exact before leads
    refine .running R common good proposes ?_ ?_
      (accounting.step (settles.passes nodes net) (net ▸ accounting.packets))
    · intro j inside here
      obtain ⟨_,same⟩ := others j here
      exact same ▸ active j inside (same ▸ here)
    · rw [nodes, Function.update_of_ne different]
      exact leads
  | withheld withholds silent waits =>
    refine .withheld withholds (net.trans silent) fun j inside here => ?_
    obtain ⟨_,same⟩ := others j here
    exact same ▸ waits j inside (same ▸ here)

theorem Aligned.stays (aligned : Aligned p z s C) (nodes : t.nodes = Function.update s.nodes i node)
    (log : t.log = s.log) (ready : node.state.view ≠ C.view → Ready p z C node) (phase : Phase p z t C) :
    Aligned p z t C := by
  refine ⟨aligned.good,?_,phase,log ▸ aligned.ended,log ▸ aligned.agreed⟩
  intro j inside outside
  by_cases same : j = i
  · subst same
    rw [nodes, Function.update_self] at outside ⊢
    exact ready outside
  · rw [nodes, Function.update_of_ne same] at outside ⊢
    exact aligned.ready j inside outside

theorem update_all {P : Nat → Node → Prop} (nodes : t.nodes = Function.update s.nodes i node)
    (moved : P i node) (before : ∀ j < z.size, (s.nodes j).state.view = C.view → P j (s.nodes j)) :
    ∀ j < z.size, (t.nodes j).state.view = C.view → P j (t.nodes j) := by
  intro j inside here
  by_cases same : j = i
  · subst same
    rw [nodes, Function.update_self]
    exact moved
  · rw [nodes, Function.update_of_ne same] at here ⊢
    exact before j inside here

theorem Round.Sends.packet {R : Round} {o : Outgoing} {j : Nat} (sends : R.Sends p i o) (inside : i < z.size)
    (dest : j < z.size) (other : j ≠ i) : R.AllowsPacket p z ⟨j,some R.common.view,o.to j⟩ := by
  refine ⟨dest,rfl,?_⟩
  rcases sends with ⟨rfl,leader⟩ | ⟨rfl,follower⟩ | rfl
  · exact Or.inl ⟨rfl,leader ▸ other⟩
  · exact Or.inr (Or.inl ⟨i,inside,follower,rfl⟩)
  · exact Or.inr (Or.inr ⟨i,inside,rfl⟩)

theorem Phase.works {R : Round} (common : R.common = C) (good : R.Good p z) (proposes : Proposes z C)
    (active : ∀ j < z.size, (s.nodes j).state.view = C.view → R.Active p z j (s.nodes j))
    (leads : (s.nodes C.leader).state.view = C.view) (accounting : R.Accounting p z s) (inside : i < z.size)
    (here : (s.nodes i).state.view = C.view) (moved : R.Active p z i node)
    (moves : R.Moves p z i (s.nodes i) node sends) : Phase p z (s.moved z.cluster i node sends) C := by
  have net : (s.moved z.cluster i node sends).net = s.net ++ z.cluster.packets i R.common.view sends := by
    rw [common, ← here]
    rfl
  have passes : R.Passes p z s (s.moved z.cluster i node sends) i node sends :=
    ⟨delivers_moved (common ▸ here),moves⟩
  refine .running R common good proposes (update_all rfl moved active) ?_ (accounting.step passes ?_)
  · by_cases same : C.leader = i
    · rw [same, moved_self]
      exact common ▸ moved.reads.view
    · rw [moved_other _ _ _ _ _ same]
      exact leads
  · intro x member
    rw [net] at member
    rcases List.mem_append.mp member with old | new
    · exact accounting.packets x old
    · obtain ⟨o,sent,j,dest,other,rfl⟩ := Setting.mem_packets.mp new
      exact (moves.sends o sent).packet inside dest other

def Advances (p : Platform) (z : Setting) (s : System) (e : SystemEvent) : Prop :=
  ∃ t, s.step z.cluster p e = some t ∧ ∃ C, Aligned p z t C

def AdvancesTo (p : Platform) (z : Setting) (s : System) (e : SystemEvent) (D : Common) : Prop :=
  ∃ t, s.step z.cluster p e = some t ∧ Aligned p z t D

theorem Aligned.command (aligned : Aligned p z s C) (inside : i < z.size) (cmd : Bytes) :
    AdvancesTo p z s (.command i cmd) C := by
  by_cases here : (s.nodes i).state.view = C.view
  · cases aligned.phase with
    | waiting proposes silent waits =>
      obtain ⟨node',step,moved⟩ := (waits i inside here).command cmd
      refine ⟨_,System.act_eq step,aligned.stays rfl rfl ?_ ?_⟩
      · exact fun outside => absurd (ground_view moved.started.ground) outside
      · exact .waiting proposes ((moved_quiet _ _ _ _).trans silent)
          (update_all rfl moved waits)
    | running R common good proposes active leads accounting =>
      obtain ⟨node',step,moved,moves⟩ := (active i inside here).command cmd
      refine ⟨_,System.act_eq step,aligned.stays rfl rfl ?_
        (.works common good proposes active leads accounting inside here moved moves)⟩
      exact fun outside => absurd (common ▸ moved.reads.view) outside
    | withheld withholds silent waits =>
      obtain ⟨node',step,moved,view⟩ := (waits i inside here).command cmd
      refine ⟨_,System.act_eq step,aligned.stays rfl rfl ?_ ?_⟩
      · exact fun outside => absurd (view.trans here) outside
      · exact .withheld withholds ((moved_quiet _ _ _ _).trans silent)
          (update_all (P := fun _ => Withholding p z C) rfl moved waits)
  · obtain ⟨node',step,ready,settles⟩ := (aligned.ready i inside here).command cmd
    have outside : node'.state.view ≠ C.view := by
      have := ready.view
      omega
    exact ⟨_,System.act_eq step,aligned.stays rfl rfl (fun _ => ready)
      (aligned.phase.outside rfl (moved_quiet _ _ _ _) here outside settles)⟩

theorem Aligned.deliver (aligned : Aligned p z s C) {k : Nat} {x : Packet} (found : s.net[k]? = some x)
    (lockStep : LockStep z.cluster s (.deliver k)) : AdvancesTo p z s (.deliver k) C := by
  have member := List.mem_of_getElem? found
  cases aligned.phase with
  | waiting _ silent _ | withheld _ silent _ => simp [silent] at member
  | running R common good proposes active leads accounting =>
    subst common
    have allows := accounting.packets x member
    have entered (j : Nat) (inside : j < z.size) : (s.nodes j).state.view = R.common.view := by
      by_contra outside
      have view := (aligned.ready j inside outside).view
      have reached := lockStep x found R.common.view allows.tag j
        ((Cluster.mem_honestNodes _ _).mpr (Setting.honest.mpr inside))
      omega
    have before := active x.dest allows.dest (entered _ allows.dest)
    have jobs := allows.jobs before.reads.leader (z.cluster.config x.dest)
    obtain ⟨moved,moves⟩ := before.receive (fun job there => (jobs job there).1)
      fun there => (jobs _ there).2 rfl
    let node : Node := ⟨(s.nodes x.dest).state,(s.nodes x.dest).pending ++
      protocol (z.cluster.config x.dest) (s.nodes x.dest).state x.msg,(s.nodes x.dest).acked⟩
    let t := { s with net := s.net.eraseIdx k }.moved z.cluster x.dest node []
    have net : t.net = s.net.eraseIdx k := moved_quiet _ _ _ _
    have passes : R.Passes p z s t x.dest node [] :=
      ⟨delivers_received found (Round.taken_protocol before.reads.leader x _ _ _),moves⟩
    refine ⟨t,?_,aligned.stays rfl rfl (fun outside => absurd moved.reads.view outside) ?_⟩
    · simp only [System.step, found]
      exact System.act_eq rfl
    · refine .running R rfl good proposes (update_all rfl moved active) ?_ (accounting.step passes ?_)
      · by_cases same : R.common.leader = x.dest
        · rw [same, passes.delivers.self]
          exact moved.reads.view
        · rw [passes.delivers.other same]
          exact leads
      · intro y there
        rw [net] at there
        exact accounting.packets y (List.mem_of_mem_eraseIdx there)

theorem Aligned.incomplete (aligned : Aligned p z s C)
    (waits : ∀ i < z.size, (s.nodes i).state.view = C.view → Waiting p z C i (s.nodes i)) {j : Nat}
    (inside : j < z.size) : (s.nodes j).state.fpropMap.lookup C.view = none := by
  by_cases here : (s.nodes j).state.view = C.view
  · exact ((waits j inside here).started.fresh.links C.view le_rfl).1
  · exact ((aligned.ready j inside here).fresh.links C.view le_rfl).1

theorem Aligned.work (laws : p.Laws) (several : 2 ≤ z.size)
    (mode : z.timerMode = .plain ∨ z.timerMode = .withhold) (aligned : Aligned p z s C) (inside : i < z.size)
    {index : Nat} {order : List Nat} {J : Job} (found : (s.nodes i).pending[index]? = some J)
    (taken : takes (z.config i) (s.nodes i).state J = true) : AdvancesTo p z s (.work i index order) C := by
  have here : (s.nodes i).state.view = C.view := by
    by_contra outside
    simp [(aligned.ready i inside outside).pending] at found
  cases aligned.phase with
  | waiting proposes silent waits =>
    have before := waits i inside here
    obtain rfl := before.jobs J (List.mem_of_getElem? found)
    by_cases leader : i = C.leader
    · obtain ⟨R,node',common,good,step,moved,announced,same⟩ :=
        Round.opens order several aligned.good mode proposes before leader found
      subst common
      have silent' : (s.moved z.cluster i node' []).net = [] := (moved_quiet _ _ _ _).trans silent
      refine ⟨_,System.act_eq step,aligned.stays rfl rfl
        (fun outside => absurd moved.reads.view outside) (.running R rfl good proposes ?_ ?_ ⟨?_,?_,?_⟩)⟩
      · intro j within there
        by_cases own : j = i
        · subst own
          rw [moved_self]
          exact moved
        · rw [moved_other _ _ _ _ _ own] at there ⊢
          exact Round.active_of_waiting good (waits j within there) (leader ▸ own)
      · rw [← leader, moved_self]
        exact moved.reads.view
      · rw [← leader, moved_self]
        exact Or.inl announced
      · intro j within complete
        refine absurd complete (Round.not_complete good ?_)
        by_cases own : j = i
        · subst own
          rw [moved_self]
          exact (congrArg (Finmap.lookup _) same).trans (aligned.incomplete waits inside)
        · rw [moved_other _ _ _ _ _ own]
          exact aligned.incomplete waits within
      · simp [silent']
    · obtain ⟨node',step,moved⟩ := Round.waits mode proposes before leader found
      refine ⟨_,System.act_eq step,aligned.stays rfl rfl ?_ ?_⟩
      · exact fun outside => absurd (ground_view moved.started.ground) outside
      · exact .waiting proposes ((moved_quiet _ _ _ _).trans silent) (update_all rfl moved waits)
  | running R common good proposes active leads accounting =>
    obtain ⟨node',sends,step,moved,moves⟩ :=
      (active i inside here).works laws good mode (common ▸ proposes) inside found taken
    refine ⟨_,System.act_eq step,aligned.stays rfl rfl ?_
      (.works common good proposes active leads accounting inside here moved moves)⟩
    exact fun outside => absurd (common ▸ moved.reads.view) outside
  | withheld withholds silent waits =>
    obtain ⟨withhold,odd⟩ := not_not.mp withholds
    obtain ⟨node',step,moved,view⟩ := (waits i inside here).work laws aligned.good withhold odd found
    refine ⟨_,System.act_eq step,aligned.stays rfl rfl ?_ ?_⟩
    · exact fun outside => absurd (view.trans here) outside
    · exact .withheld withholds ((moved_quiet _ _ _ _).trans silent)
        (update_all (P := fun _ => Withholding p z C) rfl moved waits)

/-- How the common state of one view leads to that of the next one. -/
inductive Follows (p : Platform) (z : Setting) (C : Common) : Common → Prop where
  | proposed (R : Round) : R.common = C → Proposes z C → Follows p z C ((R.ended p z).advance p z.size)
  | withheld : ¬Proposes z C → Follows p z C ((C.withheld p).advance p z.size)

theorem Aligned.finished (laws : p.Laws) (several : 2 ≤ z.size) (aligned : Aligned p z s C)
    (entered : ∀ j < z.size, (s.nodes j).state.view = C.view) (finished : ∀ j < z.size, (s.nodes j).finished)
    (silent : ∀ x ∈ s.net, x.tag ≠ some C.view) :
    ∃ D : Common, Follows p z C D ∧ D.Good p z.size ∧ s.net = [] ∧ ∀ j < z.size, Ready p z D (s.nodes j) := by
  have once {c : Clock} {pending : List Job} (clocked : Clocked z c pending) (running : 0 < c.timers) :
      c.timers = 1 := by
    have tokens := clocked.tokens
    omega
  have leads : C.leader < z.size := aligned.good.leader_lt (by omega)
  cases aligned.phase with
  | waiting _ _ waits =>
    -- the leader has not run its round, so it has not finished
    have leader := waits C.leader leads (entered _ leads)
    have waiting := leader.led rfl (once leader.clocked (finished _ leads).1)
    simp [(finished _ leads).2] at waiting
  | running R common good proposes active _ accounting =>
    subst common
    have empty : s.net = [] := by
      rw [List.eq_nil_iff_forall_not_mem]
      exact fun x member => silent x member (accounting.packets x member).tag
    refine ⟨_,.proposed R rfl proposes,Round.good_ended laws good,empty,?_⟩
    exact accounting.ready good empty (fun j inside => (finished j inside).2)
      (fun j inside => (finished j inside).1) fun j inside => active j inside (entered j inside)
  | withheld withholds empty waits =>
    have all (j : Nat) (inside : j < z.size) : Ready p z ((C.withheld p).advance p z.size) (s.nodes j) := by
      cases waits j inside (entered j inside) with
      | before _ clocked _ led =>
        have waiting := led (once clocked (finished j inside).1)
        simp [(finished j inside).2] at waiting
      | after ready => exact ready
    have known : ∃ h, C.bc.hashAt p C.bc.head = some h := by
      by_cases genesis : C.bc.head = 0
      · exact ⟨emptyHash,if_pos genesis⟩
      · obtain ⟨b,found,_⟩ := aligned.good.chained C.bc.head (by omega) le_rfl
        exact ⟨b.getBlockHash p,by rw [BlockChain.hashAt, if_neg genesis, found]; rfl⟩
    obtain ⟨h,found⟩ := known
    exact ⟨_,.withheld withholds,good_withheld laws aligned.good found,empty,all⟩

theorem Phase.enters {D : Common} (silent : t.net = []) (entered : Entered p z D (t.nodes i))
    (others : ∀ j < z.size, j ≠ i → (t.nodes j).state.view ≠ D.view) : Phase p z t D := by
  have only (j : Nat) (inside : j < z.size) (here : (t.nodes j).state.view = D.view) : j = i := by
    by_contra different
    exact others j inside different here
  by_cases proposes : Proposes z D
  · refine .waiting proposes silent fun j inside here => ?_
    rw [only j inside here]
    exact entered.waiting i
  · refine .withheld proposes silent fun j inside here => ?_
    rw [only j inside here]
    exact entered.withholding

theorem Phase.joins (phase : Phase p z s C) (nodes : t.nodes = Function.update s.nodes i node)
    (net : t.net = s.net) (outside : (s.nodes i).state.view ≠ C.view) (entered : Entered p z C node)
    (settles : Settles (s.nodes i) node) : Phase p z t C := by
  cases phase with
  | waiting proposes silent waits =>
    exact .waiting proposes (net.trans silent) (update_all nodes (entered.waiting i) waits)
  | running R common good proposes active leads accounting =>
    have different : C.leader ≠ i := by
      rintro rfl
      exact outside leads
    have joined : R.Active p z i node := by
      subst common
      exact Round.active_of_waiting good (entered.waiting i) different.symm
    refine .running R common good proposes (update_all nodes joined active) ?_
      (accounting.step (settles.passes nodes net) (net ▸ accounting.packets))
    rw [nodes, Function.update_of_ne different]
    exact leads
  | withheld withholds silent waits =>
    exact .withheld withholds (net.trans silent)
      (update_all (P := fun _ => Withholding p z C) nodes entered.withholding waits)

theorem Ready.ended {before : Node} (ready : Ready p z C before) (entered : Entered p z C node)
    (good : C.Good p z.size) : Ended p z ⟨i,before.state.view,node.state⟩ := by
  have common := entered.started.common
  have bc : node.state.bc = C.bc := congrArg Common.bc common
  refine ⟨common ▸ good,bc ▸ ready.nonzero,(ground_view entered.started.ground).trans ready.view.symm,?_⟩
  obtain ⟨cert,found,headCert⟩ := entered.started.headCert
  refine ⟨cert,?_,common ▸ headCert⟩
  rw [bc]
  exact found

theorem Aligned.joins (aligned : Aligned p z s C) (inside : i < z.size)
    (outside : (s.nodes i).state.view ≠ C.view) : AdvancesTo p z s (.callback i) C := by
  have ready := aligned.ready i inside outside
  obtain ⟨node,ran,entered,settles⟩ := ready.callback inside
  have here := ground_view entered.started.ground
  have moved : Aligned p z (s.moved z.cluster i node []) C :=
    aligned.stays rfl rfl (fun away => absurd here away)
      (aligned.phase.joins rfl (moved_quiet _ _ _ _) outside entered settles)
  refine ⟨_,System.step_callback ran,aligned.good,moved.ready,?_,?_,?_⟩
  · exact aligned.phase.joins rfl (moved_quiet z.cluster s i node) outside entered settles
  · intro e logged
    rcases List.mem_append.mp logged with old | new
    · exact aligned.ended e old
    · obtain rfl := List.mem_singleton.mp new
      exact ⟨ready.ended entered aligned.good,ready.view ▸ Nat.lt_succ_self _,
        fun _ => entered.started.common⟩
  · intro e logged e' logged' same
    have current (e : Completed) (old : e ∈ s.log) (view : e.view = (s.nodes i).state.view) :
        e.state.common = node.state.common :=
      ((aligned.ended e old).2.2 (view ▸ ready.view)).trans entered.started.common.symm
    rcases List.mem_append.mp logged with old | new <;> rcases List.mem_append.mp logged' with old' | new'
    · exact aligned.agreed e old e' old' same
    · obtain rfl := List.mem_singleton.mp new'
      exact current e old same
    · obtain rfl := List.mem_singleton.mp new
      exact (current e' old' same.symm).symm
    · obtain rfl := List.mem_singleton.mp new
      obtain rfl := List.mem_singleton.mp new'
      rfl

theorem Aligned.leaves {D : Common} (aligned : Aligned p z s C) (inside : i < z.size)
    (entered : ∀ j < z.size, (s.nodes j).state.view = C.view) (good : D.Good p z.size) (silent : s.net = [])
    (ready : ∀ j < z.size, Ready p z D (s.nodes j)) : AdvancesTo p z s (.callback i) D := by
  obtain ⟨node,ran,enters,_⟩ := (ready i inside).callback inside
  have next : C.view + 1 = D.view := entered i inside ▸ (ready i inside).view
  have self : (s.ended z.cluster i node).nodes i = node := moved_self z.cluster s i node []
  have others (j : Nat) (different : j ≠ i) : (s.ended z.cluster i node).nodes j = s.nodes j :=
    moved_other z.cluster s i node [] different
  refine ⟨_,System.step_callback ran,good,?_,?_,?_,?_⟩
  · intro j within outside
    by_cases same : j = i
    · subst same
      rw [self] at outside
      exact absurd (ground_view enters.started.ground) outside
    · rw [others j same]
      exact ready j within
  · refine .enters (i := i) ((moved_quiet z.cluster s i node).trans silent) (self.symm ▸ enters) ?_
    intro j within different
    rw [others j different, entered j within]
    omega
  · intro e logged
    rcases List.mem_append.mp logged with old | new
    · obtain ⟨ended,earlier,_⟩ := aligned.ended e old
      exact ⟨ended,by omega,by omega⟩
    · obtain rfl := List.mem_singleton.mp new
      exact ⟨(ready i inside).ended enters good,(ready i inside).view ▸ Nat.lt_succ_self _,
        fun _ => enters.started.common⟩
  · intro e logged e' logged' same
    have earlier (e : Completed) (old : e ∈ s.log) : e.view ≠ (s.nodes i).state.view := by
      have before := (aligned.ended e old).2.1
      have here := entered i inside
      omega
    rcases List.mem_append.mp logged with old | new <;> rcases List.mem_append.mp logged' with old' | new'
    · exact aligned.agreed e old e' old' same
    · obtain rfl := List.mem_singleton.mp new'
      exact absurd same (earlier e old)
    · obtain rfl := List.mem_singleton.mp new
      exact absurd same.symm (earlier e' old')
    · obtain rfl := List.mem_singleton.mp new
      obtain rfl := List.mem_singleton.mp new'
      rfl

theorem Aligned.callback (laws : p.Laws) (several : 2 ≤ z.size) (aligned : Aligned p z s C)
    (inside : i < z.size) (lockStep : LockStep z.cluster s (.callback i)) :
    ∃ D, (D = C ∨ Follows p z C D) ∧ AdvancesTo p z s (.callback i) D := by
  by_cases here : (s.nodes i).state.view = C.view
  · have all (j : Nat) (within : j < z.size) : (s.nodes j).state.view = C.view ∧ (s.nodes j).finished := by
      rcases lockStep.1 j ((Cluster.mem_honestNodes _ _).mpr (Setting.honest.mpr within)) with
        ahead | ⟨same,finished⟩
      · by_cases there : (s.nodes j).state.view = C.view
        · omega
        · have view := (aligned.ready j within there).view
          omega
      · exact ⟨same.trans here,finished⟩
    have silent (x : Packet) (there : x ∈ s.net) : x.tag ≠ some C.view := by
      intro tagged
      have later := lockStep.2 x there C.view tagged
      omega
    obtain ⟨D,follows,good,empty,ready⟩ := aligned.finished laws several (fun j within => (all j within).1)
      (fun j within => (all j within).2) silent
    exact ⟨D,Or.inr follows,aligned.leaves inside (fun j within => (all j within).1) good empty ready⟩
  · exact ⟨C,Or.inl rfl,aligned.joins inside here⟩

end Steps

/-! ## Replica consistency -/

/-- What a node holds when it has completed a view. -/
structure Consistent (p : Platform) (z : Setting) (e : Completed) : Prop where
  view : e.state.view = e.view + 1
  leader : e.state.leader = e.view % z.size
  head : e.state.bc.head = e.view
  chained : ∀ h, 1 ≤ h → h ≤ e.view → ∃ b, e.state.bc.blocksByHeight.lookup h = some b ∧
    e.state.bc.hashAt p (h - 1) = some (b.getParentHash p)
  certified : ∃ b cert, e.state.bc.blocksByHeight.lookup e.view = some b ∧
    e.state.certMap.lookup e.view = some cert ∧ (cert.getBlockInfo p).1 = b.getBlockHash p
  reputations : ∀ i < z.size, (at2 e.state.reputationMap (e.view + 1) i).isSome

theorem Ended.consistent {p : Platform} (laws : p.Laws) {z : Setting} {e : Completed} (ended : Ended p z e) :
    Consistent p z e := by
  have head : e.state.bc.head = e.view :=
    Nat.succ_injective (ended.good.head.trans ended.view)
  have leader : e.state.leader = e.state.bc.head % z.size := ended.good.leader
  refine ⟨ended.view,head ▸ leader,head,?_,?_,?_⟩
  · intro h positive within
    exact ended.good.chained h positive (within.trans_eq head.symm)
  · obtain ⟨cert,found,headCert⟩ := ended.headCert
    have hash := headCert.hash laws
    have nonzero : e.state.common.bc.head ≠ 0 := ended.nonzero
    obtain ⟨b,block,_⟩ := ended.good.chained _ (Nat.pos_of_ne_zero nonzero) le_rfl
    rw [BlockChain.hashAt, if_neg nonzero, block] at hash
    exact ⟨b,cert,head ▸ block,head ▸ found,(Option.some.inj hash).symm⟩
  · intro i inside
    have entry := (ended.good.listed i).mpr inside
    rw [Finmap.mem_keys, ← Finmap.lookup_isSome] at entry
    rw [at2_eq_row, ← ended.view]
    exact entry

theorem initial_entered (p : Platform) {z : Setting} {i : Nat} (inside : i < z.size) :
    Entered p z (Common.initial z) ⟨clientConnects (z.config i) .init,[],[]⟩ := by
  have certs (v : Nat) (later : 1 ≤ v) : (SyncHS.init.certMap).lookup v = none := by
    rw [Finmap.lookup_eq_none]
    intro member
    have zero : v = 0 := Finmap.mem_singleton _ _ _ |>.mp member
    omega
  refine ⟨⟨initial_common inside,ground_of_common (initial_common inside) rfl rfl,⟨?_,?_⟩,?_⟩,
    ⟨rfl,le_rfl,by simp⟩,fun _ => rfl,rfl,rfl⟩
  · exact fun _ _ => ⟨rfl,rfl⟩
  · exact fun v later => ⟨rfl,rfl,certs v later⟩
  · exact ⟨genesisCert,Finmap.lookup_singleton_eq,.genesis rfl⟩

theorem start_aligned (p : Platform) (z : Setting) :
    Aligned p z (System.start z.cluster) (Common.initial z) := by
  refine ⟨initial_good p z,?_,?_,by simp [System.start],by simp [System.start]⟩
  · exact fun i inside outside => absurd rfl outside
  · by_cases proposes : Proposes z (Common.initial z)
    · exact .waiting proposes rfl fun i inside _ => (initial_entered p inside).waiting i
    · exact .withheld proposes rfl fun i inside _ => (initial_entered p inside).withholding

theorem Aligned.follows {p : Platform} (laws : p.Laws) {z : Setting} (several : 2 ≤ z.size)
    (mode : z.timerMode = .plain ∨ z.timerMode = .withhold) {s : System} {C : Common} (aligned : Aligned p z s C)
    {e : SystemEvent} (enabled : s.enabled z.cluster p e) (lockStep : LockStep z.cluster s e) :
    ∃ D, (D = C ∨ Follows p z C D) ∧ AdvancesTo p z s e D := by
  cases e with
  | connect i => exact lockStep.elim
  | command i cmd => exact ⟨C,Or.inl rfl,aligned.command (Setting.honest.mp enabled) cmd⟩
  | deliver k => exact ⟨C,Or.inl rfl,aligned.deliver (List.getElem?_eq_getElem enabled) lockStep⟩
  | work i index order =>
    obtain ⟨honest,pending⟩ := enabled
    cases found : (s.nodes i).pending[index]? with
    | none => simp [Node.enabled,found] at pending
    | some J =>
      simp only [Node.enabled, found, Option.any_some] at pending
      exact ⟨C,Or.inl rfl,aligned.work laws several mode (Setting.honest.mp honest) found pending⟩
  | callback i => exact aligned.callback laws several (Setting.honest.mp enabled.1) lockStep
  | inject dest m => exact absurd enabled.1 (by simp [Setting.cluster,Cluster.complete])

theorem Aligned.step {p : Platform} (laws : p.Laws) {z : Setting} (several : 2 ≤ z.size)
    (mode : z.timerMode = .plain ∨ z.timerMode = .withhold) {s : System} {C : Common} (aligned : Aligned p z s C)
    {e : SystemEvent} (enabled : s.enabled z.cluster p e) (lockStep : LockStep z.cluster s e) :
    Advances p z s e := by
  obtain ⟨D,_,t,stepped,advanced⟩ := aligned.follows laws several mode enabled lockStep
  exact ⟨t,stepped,D,advanced⟩

/-- In every run in lock step in which all nodes follow the code, each completed view
leaves every node with one more certified block on the same chain and with the same
reputations, and nothing that can happen next panics. -/
theorem replicas_are_consistent {p : Platform} (laws : p.Laws) {z : Setting} (several : 2 ≤ z.size)
    (mode : z.timerMode = .plain ∨ z.timerMode = .withhold) {trace : List SystemEvent} {s : System}
    (run : ((systemMachine z.cluster p).restrict (LockStep z.cluster)).Run (System.start z.cluster) trace s) :
    (∀ e ∈ s.log, Consistent p z e) ∧
    (∀ e ∈ s.log, ∀ e' ∈ s.log, e.view = e'.view → e.state.bc = e'.state.bc ∧
      e.state.reputationMap.lookup (e.view + 1) = e'.state.reputationMap.lookup (e.view + 1)) ∧
    ∀ e, s.enabled z.cluster p e → LockStep z.cluster s e → (s.step z.cluster p e).isSome := by
  obtain ⟨⟨C,aligned⟩,progress⟩ := run.safe (I := fun s => ∃ C, Aligned p z s C)
    ⟨_,start_aligned p z⟩ (by
      rintro s e ⟨C,aligned⟩ ⟨enabled,lockStep⟩
      exact aligned.step laws several mode enabled lockStep)
  refine ⟨fun e logged => (aligned.ended e logged).1.consistent laws,?_,
    fun e enabled lockStep => progress e ⟨enabled,lockStep⟩⟩
  intro e logged e' logged' same
  have common := aligned.agreed e logged e' logged' same
  exact ⟨congrArg Common.bc common,
    congrArg (fun C : Common => C.reputationMap.lookup (e.view + 1)) common⟩

def twoNodeRound : List SystemEvent :=
  [.command 0 [1],.command 1 [1],.work 0 0 [],.work 1 0 [],.work 0 0 [],.deliver 0,.work 1 0 [],.deliver 0,
    .work 0 0 [],.work 1 0 [],.work 1 0 [],.deliver 0,.deliver 0,.work 0 0 [0],.work 0 0 [0,1],.work 0 0 [],
    .work 1 0 [],.work 1 0 [0,1],.work 1 0 [],.callback 0,.callback 1]

theorem two_replicas_are_consistent : ∃ s : System,
    s.log.map (fun e => (e.node,e.view)) = [(0,1),(1,1)] ∧
    ∀ e ∈ s.log, Consistent transparent ⟨2,1,false,.plain⟩ e := by
  obtain ⟨s,run,completed⟩ := Guarded.Machine.reaches
    (fun s : System => s.log.map (fun e => (e.node,e.view)) = [(0,1),(1,1)])
    (show (((systemMachine (Setting.cluster ⟨2,1,false,.plain⟩) transparent).restrict
      (LockStep (Setting.cluster ⟨2,1,false,.plain⟩))).replay twoNodeRound
      (System.start (Setting.cluster ⟨2,1,false,.plain⟩))).any _ = true by decide +kernel)
  exact ⟨s,completed,(replicas_are_consistent transparent_laws le_rfl (.inl rfl) run).1⟩

end ReputationSMR
