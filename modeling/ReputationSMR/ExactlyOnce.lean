import ReputationSMR.FailedRounds
import ReputationSMR.FaultFree
import ReputationSMR.Lifo

/-! Which commands of the clients are in the chain, and how often. Every node keeps its own
pool of commands; a leader takes the newest ones of its pool and leaves them in the pools of
the others. Nothing in the code looks a command up in the chain before proposing it, so what is
in the chain follows from the arrivals and the turns of the leaders alone. -/
namespace ReputationSMR

open Wire FiniteMap Guarded.Machine

/-! ## The commands of a chain -/

/-- The transactions of the blocks up to the head. -/
def BlockChain.commands (bc : BlockChain) : List Bytes :=
  (List.range bc.head).flatMap fun h => ((bc.blocksByHeight.lookup (h + 1)).map ExtBlock.getTxs).getD []

theorem BlockChain.commands_extend (p : Platform) {bc : BlockChain} {b : ExtBlock}
    (next : b.getHeight = bc.head + 1) : (bc.extend p b).commands = bc.commands ++ b.getTxs := by
  have below (h : Nat) (member : h ∈ List.range bc.head) :
      (bc.extend p b).blocksByHeight.lookup (h + 1) = bc.blocksByHeight.lookup (h + 1) := by
    have := List.mem_range.mp member
    rw [BlockChain.extend, BlockChain.store_byHeight, if_neg (by omega)]
  have top : (bc.extend p b).blocksByHeight.lookup (bc.head + 1) = some b := by
    rw [BlockChain.extend, BlockChain.store_byHeight, if_pos next.symm]
  have head : (bc.extend p b).head = bc.head + 1 := rfl
  rw [BlockChain.commands, head, List.range_succ, List.flatMap_append, List.flatMap_singleton, top,
    List.flatMap_congr fun h member => by rw [below h member]]
  rfl

theorem candidateBlock_getTxs (p : Platform) (cmds : List Bytes) (cert : BlockCertificate) (height : Nat)
    (extra : Bytes) : (candidateBlock p cmds cert height extra).getTxs = cmds := rfl

/-! ## The clients -/

def arrivals (i : Nat) (trace : List SystemEvent) : List Bytes :=
  trace.filterMap fun
    | .command j cmd => if j = i then some cmd else none
    | _ => none

theorem arrivals_append (i : Nat) (trace later : List SystemEvent) :
    arrivals i (trace ++ later) = arrivals i trace ++ arrivals i later := List.filterMap_append

/-- The clients send pairwise different commands that are not empty, each to every node. -/
def SendsOnce (trace : List SystemEvent) : Prop := ∀ i, (arrivals i trace).Nodup ∧ [] ∉ arrivals i trace

/-- What an event does to the pools: a command arrives, or a leader takes the commands of its
proposal. -/
def System.poolEvents (c : Cluster) (s : System) : SystemEvent → List (Lifo.Event Bytes)
  | .command i cmd => [.arrival i cmd]
  | .work i index order => if ((s.nodes i).draws (c.config i) (.work index order)).isSome then [.turn i] else []
  | _ => []

/-- A system with its arrivals and the turns of its leaders, in this order. -/
def poolLogMachine (c : Cluster) (p : Platform) : Guarded.Machine (Logged System (Lifo.Event Bytes)) SystemEvent :=
  (systemMachine c p).observed fun s e _ => s.poolEvents c e

instance (c : Cluster) (p : Platform) (s : Logged System (Lifo.Event Bytes)) (e : SystemEvent) :
    Decidable ((poolLogMachine c p).enabled s e) := inferInstanceAs (Decidable ((systemMachine c p).enabled _ _))

/-- `Init` makes a pool with a thousand empty commands. -/
def emptyCommands : List Bytes := List.replicate 1000 []

/-- Pools that are given these arrivals and turns and know nothing of the nodes. -/
def Setting.pools (z : Setting) (log : List (Lifo.Event Bytes)) : Lifo.Pools Bytes :=
  .run z.blockSize emptyCommands log

/-- No command of a client is twice in the chain of a node. -/
def CommitsOnce (z : Setting) (trace : List SystemEvent) (s : System) : Prop :=
  ∀ i < z.size, ∀ j, ∀ cmd ∈ arrivals j trace, (s.nodes i).state.bc.commands.count cmd ≤ 1

/-! ## Pools -/

section Pools

variable {p : Platform} {z : Setting} {s t : System} {e : SystemEvent} {log : List (Lifo.Event Bytes)}

theorem Setting.pools_append (z : Setting) (log later : List (Lifo.Event Bytes)) :
    z.pools (log ++ later) = later.foldl (Lifo.Pools.step z.blockSize) (z.pools log) :=
  Lifo.Pools.run_append z.blockSize emptyCommands log later

theorem take_of_draw {pool rest batch : List Bytes} {size : Nat} (drawn : rest ++ batch = pool)
    (length : batch.length = size) : rest = pool.take (pool.length - size) ∧ batch = Lifo.newest size pool := by
  have below : pool.length - size = rest.length := by
    rw [← drawn, List.length_append, length, Nat.add_sub_cancel]
  constructor
  · rw [below, ← drawn, List.take_left]
  · rw [Lifo.newest, below, ← drawn, List.drop_left]

theorem pools_command {k : Nat} {cmd : Bytes} (stepped : s.step z.cluster p (.command k cmd) = some t)
    (pools : ∀ i, (s.nodes i).state.pendingCommands = ((z.pools log).pool i).stack) (i : Nat) :
    (t.nodes i).state.pendingCommands = ((z.pools (log ++ [.arrival k cmd])).pool i).stack := by
  obtain ⟨node,sends,ran,rfl⟩ := System.act_step stepped
  rw [Setting.pools_append, List.foldl_cons, List.foldl_nil, Lifo.Pools.pool_arrival]
  split
  next own =>
    subst own
    have added := (pool_event (Option.map_eq_some_iff.mpr ⟨_,ran,rfl⟩)).1
    rw [Lifo.Pool.arrive, ← pools i, moved_self]
    simpa [Node.draws, Node.taken, NodeEvent.commands] using added
  next other =>
    rw [moved_other z.cluster s k node sends other]
    exact pools i

theorem pools_work {k index : Nat} {order : List Nat} (stepped : s.step z.cluster p (.work k index order) = some t)
    (pools : ∀ i, (s.nodes i).state.pendingCommands = ((z.pools log).pool i).stack) (i : Nat) :
    (t.nodes i).state.pendingCommands =
      ((z.pools (log ++ s.poolEvents z.cluster (.work k index order))).pool i).stack := by
  obtain ⟨node,sends,ran,rfl⟩ := System.act_step stepped
  obtain ⟨added,length⟩ := pool_event (Option.map_eq_some_iff.mpr ⟨_,ran,rfl⟩)
  rw [System.poolEvents]
  cases drawn : (s.nodes k).draws (z.cluster.config k) (.work index order) with
  | none =>
    rw [Option.isSome_none, if_neg (by simp), List.append_nil]
    by_cases own : i = k
    · subst own
      rw [drawn] at added
      rw [moved_self, ← pools i]
      simpa [NodeEvent.commands] using added
    · rw [moved_other z.cluster s k node sends own]
      exact pools i
  | some batch =>
    rw [Option.isSome_some, if_pos rfl, Setting.pools_append, List.foldl_cons, List.foldl_nil, Lifo.Pools.pool_turn]
    split
    next own =>
      subst own
      rw [drawn] at added
      simp only [Option.getD_some, NodeEvent.commands, List.append_nil] at added
      rw [Lifo.Pool.turn, ← pools i, moved_self]
      exact (take_of_draw added (length batch drawn)).1
    next other =>
      rw [moved_other z.cluster s k node sends other]
      exact pools i

theorem pools_step (stepped : s.step z.cluster p e = some t)
    (pools : ∀ i, (s.nodes i).state.pendingCommands = ((z.pools log).pool i).stack) (i : Nat) :
    (t.nodes i).state.pendingCommands = ((z.pools (log ++ s.poolEvents z.cluster e)).pool i).stack := by
  have quiet {event : NodeEvent} {sends : List Outgoing} (none : event.commands = [])
      (idle : (s.nodes i).taken event = Option.none)
      (ran : (s.nodes i).step p (z.cluster.config i) event = some (t.nodes i,sends)) :
      (t.nodes i).state.pendingCommands = ((z.pools log).pool i).stack := by
    have kept := (pool_event (Option.map_eq_some_iff.mpr ⟨_,ran,rfl⟩)).1
    rw [none, Node.draws, idle] at kept
    simpa [pools i] using kept
  cases e with
  | command k cmd => exact pools_command stepped pools i
  | work k index order => exact pools_work stepped pools i
  | connect k | deliver k | callback k | inject k m =>
    simp only [System.poolEvents, List.append_nil]
    rcases System.step_at stepped i with rests | ⟨event,sends,acts,ran,_⟩
    · rw [rests]
      exact pools i
    · cases acts <;> exact quiet rfl rfl ran

theorem arrived_step {past : List SystemEvent} (arrived : ∀ i, ((z.pools log).pool i).arrived = arrivals i past)
    (s : System) (e : SystemEvent) (i : Nat) :
    ((z.pools (log ++ s.poolEvents z.cluster e)).pool i).arrived = arrivals i (past ++ [e]) := by
  rw [arrivals_append, ← arrived i]
  cases e with
  | command k cmd =>
    rw [System.poolEvents, Setting.pools_append, List.foldl_cons, List.foldl_nil, Lifo.Pools.pool_arrival]
    split
    next own => simp [own, arrivals, Lifo.Pool.arrive, Lifo.Pool.arrived]
    next other => simp [arrivals, Ne.symm other]
  | work k index order =>
    have none : arrivals i [.work k index order] = [] := rfl
    rw [System.poolEvents, none, List.append_nil]
    split
    next =>
      rw [Setting.pools_append, List.foldl_cons, List.foldl_nil, Lifo.Pools.pool_turn]
      split
      next => exact List.append_nil _
      next => rfl
    next => rw [List.append_nil]
  | connect k | deliver k | callback k | inject k m => simp [System.poolEvents, arrivals]

end Pools

/-! ## Chains -/

section Chains

variable {p : Platform} {z : Setting} {s t : System} {C : Common} {e : SystemEvent}

theorem Ready.bc {node : Node} (ready : Ready p z C node) : node.state.bc = C.bc := congrArg Common.bc ready.common

theorem Round.Active.bc {R : Round} {i : Nat} {node : Node} (active : R.Active p z i node) :
    node.state.bc = R.common.bc ∧ i ≠ R.common.leader ∨ node.state.bc = R.common.bc.extend p (R.block p) := by
  have chain : node.state.bc = _ := active.linked.chain
  split at chain
  next => exact Or.inr chain
  next neither => exact Or.inl ⟨chain,fun leads => neither (Or.inl leads)⟩

theorem draw_isSome_iff {cfg : NodeConfig} {n : SyncHS} : (n.draw cfg).isSome ↔ n.CanPropose cfg := by
  simp only [SyncHS.draw, SyncHS.getCertForBlockIndex, SyncHS.getCmdsIfSufficient, SyncHS.CanPropose]
  cases n.certMap.lookup n.bc.head with
  | none => simp
  | some cert =>
    by_cases few : n.pendingCommands.length < cfg.blockSize
    · simp [few]
    · simp [few, Nat.not_lt.mp few]

theorem draws_isSome_iff {cfg : NodeConfig} (plain : cfg.timerMode = .plain) {node : Node} {index : Nat}
    {order : List Nat} : (node.draws cfg (.work index order)).isSome ↔
      node.pending[index]? = some .round ∧ node.state.leader = cfg.id ∧ node.state.CanPropose cfg := by
  simp only [Node.draws, Node.taken]
  split
  next round =>
    rw [round, SyncHS.batch, ← draw_isSome_iff]
    have calls : node.state.callsPropose cfg ↔ node.state.leader = cfg.id := by simp [SyncHS.callsPropose, plain]
    by_cases leads : node.state.leader = cfg.id
    · rw [if_pos (calls.mpr leads)]
      simp [leads]
    · rw [if_neg fun called => leads (calls.mp called)]
      simp [leads]
  next other =>
    constructor
    · simp
    · exact fun all => (other all.1).elim

theorem round_starts (plain : z.timerMode = .plain) {i index : Nat} {order : List Nat}
    (stepped : s.step z.cluster p (.work i index order) = some t) (found : (s.nodes i).pending[index]? = some .round) :
    Starts p (z.config i) (s.nodes i).state (t.nodes i).state := by
  obtain ⟨node,sends,ran,rfl⟩ := System.act_step stepped
  obtain ⟨job,effect,there,started,_⟩ := work_runs (Option.map_eq_some_iff.mpr ⟨_,ran,rfl⟩)
  obtain rfl := Option.some.inj (found.symm.trans there)
  rw [moved_self]
  exact startRound_starts (Or.inl plain) started fun mode => absurd (plain.symm.trans mode) (by simp)

theorem Aligned.works {R : Round} (laws : p.Laws) (plain : z.timerMode = .plain) (good : R.Good p z)
    (proposes : Proposes z R.common) {i index : Nat} {order : List Nat} {job : Job}
    (active : R.Active p z i (s.nodes i)) (enabled : s.enabled z.cluster p (.work i index order))
    (stepped : s.step z.cluster p (.work i index order) = some t) (inside : i < z.size)
    (found : (s.nodes i).pending[index]? = some job) : R.Active p z i (t.nodes i) := by
  have taken : takes (z.config i) (s.nodes i).state job = true := by
    have pending := enabled.2
    simp only [Node.enabled, found, Option.any_some] at pending
    exact pending
  have works : R.Works p z i (s.nodes i) index order :=
    active.works laws good (Or.inl plain) proposes inside found taken
  obtain ⟨next,sent,ran,moved,_⟩ := works
  obtain rfl := Option.some.inj (stepped.symm.trans (System.act_eq ran))
  rwa [moved_self]

theorem Aligned.level (aligned : Aligned p z s C)
    (waits : ∀ i < z.size, (s.nodes i).state.view = C.view → Waiting p z C i (s.nodes i)) {j : Nat} (inside : j < z.size) :
    (s.nodes j).state.bc = C.bc := by
  by_cases here : (s.nodes j).state.view = C.view
  · exact congrArg Common.bc (waits j inside here).started.common
  · exact (aligned.ready j inside here).bc

/-- A leader that draws commands for its round finds all nodes with its own chain, and proposes. -/
theorem Aligned.turn (laws : p.Laws) (plain : z.timerMode = .plain) (aligned : Aligned p z s C) {i index : Nat}
    {order : List Nat} (enabled : s.enabled z.cluster p (.work i index order))
    (stepped : s.step z.cluster p (.work i index order) = some t) (inside : i < z.size)
    (draws : ((s.nodes i).draws (z.cluster.config i) (.work index order)).isSome) :
    (∀ j < z.size, (s.nodes j).state.bc = (s.nodes i).state.bc) ∧
      ∃ cert, (t.nodes i).state.bc = (s.nodes i).state.bc.extend p (candidateBlock p
        ((s.nodes i).state.newestCommands (z.config i)) cert ((s.nodes i).state.bc.head + 1) []) := by
  obtain ⟨found,leader,can⟩ := (draws_isSome_iff plain).mp draws
  have leader : (s.nodes i).state.leader = i := leader
  obtain ⟨cert,extended⟩ : ∃ cert, (t.nodes i).state.bc = (s.nodes i).state.bc.extend p (candidateBlock p
      ((s.nodes i).state.newestCommands (z.config i)) cert ((s.nodes i).state.bc.head + 1) []) := by
    cases round_starts plain stepped found with
    | idle cannot _ _ => exact absurd ⟨leader,can⟩ cannot
    | proposes cert _ _ _ bc _ => exact ⟨cert,bc⟩
  have here : (s.nodes i).state.view = C.view := by
    by_contra outside
    simp [(aligned.ready i inside outside).pending] at found
  refine ⟨fun j within => ?_,cert,extended⟩
  cases aligned.phase with
  | waiting _ _ waits => rw [aligned.level waits within, aligned.level waits inside]
  | running R common good proposes active leads _ =>
    -- the leader of the running round has proposed already
    subst common
    have turn : i = R.common.leader := leader.symm.trans (congrArg Ground.leader (active i inside here).ground)
    have before := (active i inside here).bc.resolve_left fun both => both.2 turn
    have after := (Aligned.works laws plain good proposes (active i inside here) enabled stepped inside found).bc.resolve_left
      fun both => both.2 turn
    rw [extended, before] at after
    exact absurd (congrArg BlockChain.head after) (Nat.succ_ne_self _)
  | withheld withholds _ _ => exact absurd plain (by simp [(not_not.mp withholds).1])

theorem Aligned.chains (laws : p.Laws) (plain : z.timerMode = .plain) (aligned : Aligned p z s C)
    (enabled : s.enabled z.cluster p e) (stepped : s.step z.cluster p e = some t) {i : Nat} (inside : i < z.size)
    (idle : ∀ index order, e = .work i index order →
      ((s.nodes i).draws (z.cluster.config i) (.work index order)).isSome = false) :
    (t.nodes i).state.bc = (s.nodes i).state.bc ∨ ∃ k < z.size, (t.nodes i).state.bc = (s.nodes k).state.bc ∧
      ∀ j < z.size, (s.nodes j).state.bc.head ≤ (s.nodes k).state.bc.head := by
  rcases System.step_at stepped i with rests | ⟨event,sends,acts,ran,_⟩
  · exact Or.inl (by rw [rests])
  have case := node_cases ran
  generalize after : t.nodes i = node' at case
  cases case with
  | connected | received _ => exact Or.inl rfl
  | commanded _ n' _ case => cases case with | pooled _ _ _ _ _ _ => exact Or.inl rfl
  | calledBack n' _ case => cases case <;> exact Or.inl rfl
  | worked index order job n' jobs sends found case =>
    cases acts
    have here : (s.nodes i).state.view = C.view := by
      by_contra outside
      simp [(aligned.ready i inside outside).pending] at found
    cases aligned.phase with
    | waiting _ _ waits =>
      -- nothing but rounds is pending before the leader has proposed
      obtain rfl := (waits i inside here).jobs job (List.mem_of_getElem? found)
      have start := round_starts plain stepped found
      rw [after] at start
      cases start with
      | idle _ bc _ => exact Or.inl bc
      | proposes _ leader can _ _ _ =>
        have draws : ((s.nodes i).draws (z.cluster.config i) (.work index order)).isSome = true :=
          (draws_isSome_iff plain).mpr ⟨found,leader,can⟩
        exact absurd (draws.symm.trans (idle index order rfl)) (by simp)
    | running R common good proposes active leads _ =>
      subst common
      have moved := Aligned.works laws plain good proposes (active i inside here) enabled stepped inside found
      rw [after] at moved
      have within := good.leader_lt
      have top := (active _ within leads).bc.resolve_left fun both => both.2 rfl
      rcases moved.bc with ⟨kept,follows⟩ | caught
      · left
        rcases (active i inside here).bc with ⟨before,_⟩ | before
        · rw [before]
          exact kept
        · have grows := case.step.chain.head_le
          rw [before, show n'.bc = _ from kept] at grows
          exact absurd grows (Nat.not_succ_le_self _)
      · refine Or.inr ⟨R.common.leader,within,caught.trans top.symm,fun j member => ?_⟩
        rw [top]
        by_cases there : (s.nodes j).state.view = R.common.view
        · rcases (active j member there).bc with ⟨before,_⟩ | before
          · rw [before]
            exact Nat.le_succ _
          · rw [before]
        · rw [(aligned.ready j member there).bc]
          exact Nat.le_succ _
    | withheld withholds _ _ => exact absurd plain (by simp [(not_not.mp withholds).1])

end Chains

/-! ## Exactly once -/

section Once

variable {p : Platform} {z : Setting}

/-- Pools and chains follow from the log: the longest chain consists of what was taken at the
turns, and the others lack blocks at its end. -/
structure Tracks (z : Setting) (past : List SystemEvent) (s : Logged System (Lifo.Event Bytes)) : Prop where
  pools : ∀ i, (s.state.nodes i).state.pendingCommands = ((z.pools s.log).pool i).stack
  arrived : ∀ i, ((z.pools s.log).pool i).arrived = arrivals i past
  chain : ∃ k < z.size, (s.state.nodes k).state.bc.commands = (z.pools s.log).batches.flatMap Prod.snd ∧
    ∀ i < z.size, (s.state.nodes i).state.bc = (s.state.nodes k).state.bc ∨
      (s.state.nodes i).state.bc.head < (s.state.nodes k).state.bc.head ∧
        (s.state.nodes i).state.bc.commands <+: (s.state.nodes k).state.bc.commands

theorem Tracks.start (several : 2 ≤ z.size) : Tracks z [] ⟨System.start z.cluster,[]⟩ := by
  refine ⟨fun _ => rfl,fun _ => rfl,0,by omega,rfl,fun _ _ => Or.inl rfl⟩

theorem Tracks.turn {past : List SystemEvent} {s t : Logged System (Lifo.Event Bytes)} {C : Common} {i index : Nat}
    {order : List Nat} (tracks : Tracks z past s) (laws : p.Laws) (plain : z.timerMode = .plain)
    (aligned : Aligned p z s.state C) (enabled : s.state.enabled z.cluster p (.work i index order))
    (stepped : s.state.step z.cluster p (.work i index order) = some t.state)
    (log : t.log = s.log ++ [.turn i])
    (draws : ((s.state.nodes i).draws (z.cluster.config i) (.work index order)).isSome) :
    ∃ k < z.size, (t.state.nodes k).state.bc.commands = (z.pools t.log).batches.flatMap Prod.snd ∧
      ∀ j < z.size, (t.state.nodes j).state.bc = (t.state.nodes k).state.bc ∨
        (t.state.nodes j).state.bc.head < (t.state.nodes k).state.bc.head ∧
          (t.state.nodes j).state.bc.commands <+: (t.state.nodes k).state.bc.commands := by
  have inside : i < z.size := Setting.honest.mp enabled.1
  obtain ⟨k,within,commands,_⟩ := tracks.chain
  obtain ⟨level,cert,extended⟩ := aligned.turn laws plain enabled stepped inside draws
  have grown : (t.state.nodes i).state.bc.commands =
      (s.state.nodes i).state.bc.commands ++ (s.state.nodes i).state.newestCommands (z.config i) := by
    rw [extended, BlockChain.commands_extend p rfl, candidateBlock_getTxs]
  refine ⟨i,inside,?_,fun j member => ?_⟩
  · rw [grown, ← level k within, commands, log, Setting.pools_append]
    simp only [List.foldl_cons, List.foldl_nil, Lifo.Pools.step, List.flatMap_append, List.flatMap_cons,
      List.flatMap_nil, List.append_nil, ← tracks.pools i]
    rfl
  · by_cases own : j = i
    · exact Or.inl (by rw [own])
    · obtain ⟨node,sends,_,moved⟩ := System.act_step stepped
      have rests : t.state.nodes j = s.state.nodes j := by
        rw [moved]
        exact moved_other z.cluster s.state i node sends own
      right
      rw [rests, level j member, grown, extended]
      exact ⟨Nat.lt_succ_self _,List.prefix_append _ _⟩

theorem Tracks.step {past : List SystemEvent} {s t : Logged System (Lifo.Event Bytes)} {C : Common} {e : SystemEvent}
    (tracks : Tracks z past s) (laws : p.Laws) (plain : z.timerMode = .plain) (aligned : Aligned p z s.state C)
    (enabled : s.state.enabled z.cluster p e) (moved : (poolLogMachine z.cluster p).step s e = some t) :
    Tracks z (past ++ [e]) t := by
  obtain ⟨stepped,log⟩ := observed_step moved
  have stepped : s.state.step z.cluster p e = some t.state := stepped
  refine ⟨log ▸ pools_step stepped tracks.pools,log ▸ arrived_step tracks.arrived s.state e,?_⟩
  by_cases turn : ∃ i index order, e = .work i index order ∧
      ((s.state.nodes i).draws (z.cluster.config i) (.work index order)).isSome = true
  · obtain ⟨i,index,order,rfl,draws⟩ := turn
    refine tracks.turn laws plain aligned enabled stepped ?_ draws
    rw [log, System.poolEvents, if_pos draws]
  · have idle (i index : Nat) (order : List Nat) (same : e = .work i index order) :
        ((s.state.nodes i).draws (z.cluster.config i) (.work index order)).isSome = false :=
      Bool.eq_false_iff.mpr fun draws => turn ⟨i,index,order,same,draws⟩
    have batches : (z.pools t.log).batches = (z.pools s.log).batches := by
      rw [log, Setting.pools_append]
      cases e with
      | work i index order =>
        rw [System.poolEvents, if_neg (by rw [idle i index order rfl]; simp)]
        rfl
      | _ => rfl
    obtain ⟨k,within,commands,others⟩ := tracks.chain
    -- whoever has a longest chain has the chain of node `k`
    have top (l : Nat) (member : l < z.size)
        (longest : ∀ j < z.size, (s.state.nodes j).state.bc.head ≤ (s.state.nodes l).state.bc.head) :
        (s.state.nodes l).state.bc = (s.state.nodes k).state.bc :=
      (others l member).resolve_right fun shorter => Nat.not_lt.mpr (longest k within) shorter.1
    have chains (j : Nat) (member : j < z.size) : (t.state.nodes j).state.bc = (s.state.nodes j).state.bc ∨
        (t.state.nodes j).state.bc = (s.state.nodes k).state.bc := by
      refine (aligned.chains laws plain enabled stepped member (idle j)).imp_right ?_
      rintro ⟨l,inside,caught,longest⟩
      exact caught.trans (top l inside longest)
    have kept : (t.state.nodes k).state.bc = (s.state.nodes k).state.bc := (chains k within).elim id id
    refine ⟨k,within,by rw [kept, batches]; exact commands,fun j member => ?_⟩
    rw [kept]
    rcases chains j member with same | same
    · rw [same]
      exact others j member
    · exact Or.inl same

/-- What the chains hold is what was taken at the turns, so that each command is at most once in
every chain exactly when no two leaders took it. -/
theorem Tracks.once_iff {past : List SystemEvent} {s : Logged System (Lifo.Event Bytes)} (tracks : Tracks z past s)
    (sends : SendsOnce past) : CommitsOnce z past s.state ↔ Lifo.Pools.Apart emptyCommands (z.pools s.log).batches := by
  obtain ⟨k,within,commands,others⟩ := tracks.chain
  have kept := Lifo.Pools.Kept.run z.blockSize emptyCommands s.log
  have own {cmd : Bytes} (new : cmd ∉ emptyCommands) (i : Nat) :
      (Lifo.Pools.taken i (z.pools s.log).batches).count cmd ≤ 1 := by
    refine kept.taken_once new (fun j => ?_) i
    rw [show ((Lifo.Pools.run z.blockSize emptyCommands s.log).pool j).arrived = arrivals j past from tracks.arrived j]
    exact List.nodup_iff_count_le_one.mp (sends j).1 cmd
  constructor
  · intro once
    have each (cmd : Bytes) (new : cmd ∉ emptyCommands) (i : Nat) (arrived : cmd ∈ arrivals i past) :=
      (Lifo.Pools.count_le_one_iff (own new)).mp (commands ▸ once k within i cmd arrived)
    refine List.pairwise_iff_forall_sublist.mpr fun {a b} pair other cmd inside new => ?_
    have member : a ∈ (z.pools s.log).batches := pair.subset List.mem_cons_self
    have early := (kept.source a member cmd inside).resolve_left new
    have arrived : cmd ∈ arrivals a.1 past := by
      rw [← tracks.arrived a.1]
      exact List.mem_append_left _ early
    exact List.pairwise_iff_forall_sublist.mp (each cmd new a.1 arrived) pair other inside
  · intro apart i inside j cmd arrived
    have new : cmd ∉ emptyCommands := by
      intro empty
      rw [List.eq_of_mem_replicate empty] at arrived
      exact (sends j).2 arrived
    have few := (Lifo.Pools.count_le_one_iff (own new)).mpr
      (apart.imp fun distinct other here => distinct other cmd here new)
    rw [← commands] at few
    rcases others i inside with same | ⟨_,shorter⟩
    · rwa [same]
    · exact (shorter.sublist.count_le cmd).trans few

/-- In every run of plain rounds in lock step in which all nodes follow the code and the clients
send different commands, no command is twice in the chain of a node exactly when no two leaders
have it among the newest commands that they have not taken, at their turns. This is so whenever
each command that had reached another leader by its latest turn is covered at the leader whose
turn it is: enough newer commands have arrived there since its own latest turn. -/
theorem commands_commit_once_iff (laws : p.Laws) (several : 2 ≤ z.size) (plain : z.timerMode = .plain)
    {trace : List SystemEvent} {s : Logged System (Lifo.Event Bytes)}
    (run : ((poolLogMachine z.cluster p).restrict fun s e => LockStep z.cluster s.state e).Run
      ⟨System.start z.cluster,[]⟩ trace s) (sends : SendsOnce trace) :
    (CommitsOnce z trace s.state ↔ Lifo.Pools.Apart emptyCommands (z.pools s.log).batches) ∧
      (Lifo.Pools.Covered z.blockSize emptyCommands s.log → CommitsOnce z trace s.state) := by
  have tracks : (∃ C, Aligned p z s.state C) ∧ Tracks z trace s := by
    refine run.history (I := fun past s => (∃ C, Aligned p z s.state C) ∧ Tracks z past s)
      ⟨⟨_,start_aligned p z⟩,.start several⟩ ?_
    rintro past s e t before ⟨⟨C,aligned⟩,tracks⟩ ⟨enabled,lockStep⟩ moved
    obtain ⟨next,advanced,after⟩ := aligned.step laws several (Or.inl plain) enabled lockStep
    have moved : (poolLogMachine z.cluster p).step s e = some t := moved
    obtain rfl := Option.some.inj ((observed_step moved).1.symm.trans advanced)
    exact ⟨after,tracks.step laws plain aligned enabled moved⟩
  have once := tracks.2.once_iff sends
  exact ⟨once,fun covered => once.mpr covered.apart⟩

end Once

def pairRound (leader follower : Nat) : List SystemEvent :=
  [.work leader 0 [],.work follower 0 [],.work leader 0 [],.deliver 0,.work follower 0 [],.deliver 0,.work leader 0 [],
    .work follower 0 [],.work follower 0 [],.deliver 0,.deliver 0,.work leader 0 [leader],.work leader 0 [0,1],
    .work leader 0 [],.work follower 0 [],.work follower 0 [0,1],.work follower 0 [],.callback leader,
    .callback follower]

/-- Both commands reach both nodes in the same order, one before each round. -/
def inOrder : List SystemEvent :=
  [.command 0 [1],.command 1 [1]] ++ pairRound 0 1 ++ [.command 0 [2],.command 1 [2]] ++ pairRound 1 0

/-- Each node learns of the command that it proposes just before its own round. -/
def crossed : List SystemEvent :=
  [.command 0 [1],.command 1 [2]] ++ pairRound 0 1 ++ [.command 1 [1],.command 0 [2]] ++ pairRound 1 0

theorem sendsOnce_of_pair {trace : List SystemEvent} (left right : List Bytes) (first : arrivals 0 trace = left)
    (second : arrivals 1 trace = right) (others : ∀ i, i ≠ 0 → i ≠ 1 → arrivals i trace = [])
    (lefts : left.Nodup ∧ [] ∉ left) (rights : right.Nodup ∧ [] ∉ right) : SendsOnce trace := by
  intro i
  by_cases zero : i = 0
  · rw [zero, first]
    exact lefts
  by_cases one : i = 1
  · rw [one, second]
    exact rights
  · rw [others i zero one]
    simp

theorem crossed_sendsOnce : SendsOnce crossed := by
  refine sendsOnce_of_pair [[1],[2]] [[2],[1]] rfl rfl (fun i zero one => ?_) (by decide) (by decide)
  simp [crossed,pairRound,arrivals,Ne.symm zero,Ne.symm one]

theorem two_commands_commit : ∃ s : Logged System (Lifo.Event Bytes),
    s.log = [.arrival 0 [1],.arrival 1 [1],.turn 0,.arrival 0 [2],.arrival 1 [2],.turn 1] ∧
    (s.state.nodes 0).state.bc.commands = [[1],[2]] ∧ (s.state.nodes 1).state.bc.commands = [[1],[2]] ∧
    CommitsOnce ⟨2,1,false,.plain⟩ inOrder s.state := by
  obtain ⟨s,run,log,apart,first,second⟩ := Guarded.Machine.reaches
    (fun s : Logged System (Lifo.Event Bytes) =>
      s.log = [.arrival 0 [1],.arrival 1 [1],.turn 0,.arrival 0 [2],.arrival 1 [2],.turn 1] ∧
      Lifo.Pools.Apart emptyCommands (Setting.pools ⟨2,1,false,.plain⟩ s.log).batches ∧
      (s.state.nodes 0).state.bc.commands = [[1],[2]] ∧ (s.state.nodes 1).state.bc.commands = [[1],[2]])
    (show (((poolLogMachine (Setting.cluster ⟨2,1,false,.plain⟩) transparent).restrict fun s e =>
      LockStep (Setting.cluster ⟨2,1,false,.plain⟩) s.state e).replay inOrder
      ⟨System.start (Setting.cluster ⟨2,1,false,.plain⟩),[]⟩).any _ = true by decide +kernel)
  refine ⟨s,log,first,second,(commands_commit_once_iff transparent_laws le_rfl rfl run ?_).1.mpr apart⟩
  refine sendsOnce_of_pair [[1],[2]] [[1],[2]] rfl rfl (fun i zero one => ?_) (by decide) (by decide)
  simp [inOrder,pairRound,arrivals,Ne.symm zero,Ne.symm one]

/-- The leader of the first view proposes a command that the leader of the second still has
in its pool: the client has sent it once to each node, and it is in both blocks. -/
theorem command_commits_twice : SendsOnce crossed ∧ arrivals 0 crossed = [[1],[2]] ∧ arrivals 1 crossed = [[2],[1]] ∧
    ∃ s : System, ((systemMachine (Setting.cluster ⟨2,1,false,.plain⟩) transparent).restrict
        (LockStep (Setting.cluster ⟨2,1,false,.plain⟩))).Run (System.start (Setting.cluster ⟨2,1,false,.plain⟩))
        crossed s ∧
      s.log.map (fun e => (e.node,e.view)) = [(0,1),(1,1),(1,2),(0,2)] ∧
      (s.nodes 0).state.bc.commands = [[1],[1]] ∧ (s.nodes 1).state.bc.commands = [[1],[1]] := by
  refine ⟨crossed_sendsOnce,rfl,rfl,?_⟩
  exact Guarded.Machine.reaches (fun s : System => s.log.map (fun e => (e.node,e.view)) = [(0,1),(1,1),(1,2),(0,2)] ∧
      (s.nodes 0).state.bc.commands = [[1],[1]] ∧ (s.nodes 1).state.bc.commands = [[1],[1]])
    (show (((systemMachine (Setting.cluster ⟨2,1,false,.plain⟩) transparent).restrict
      (LockStep (Setting.cluster ⟨2,1,false,.plain⟩))).replay crossed
      (System.start (Setting.cluster ⟨2,1,false,.plain⟩))).any _ = true by decide +kernel)

end ReputationSMR
