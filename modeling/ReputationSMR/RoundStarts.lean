import ReputationSMR.FailedRounds

/-! The starts of rounds, one instruction at a time. Every client command has a goroutine of its own
that runs `addCmdsAndStartTimerIfSufficientCommands` without a lock beyond the append, so that the
test of `gcallFuncFinish` and its reset, the test of the channel length, the receive and the start of
the timer interleave with those of other goroutines and with the callbacks of the timers. -/
namespace ReputationSMR

open Wire FiniteMap

/-! ## Goroutines -/

/-- What the starts of rounds are decided by. -/
def SyncHS.startSignals (n : SyncHS) : Bool × Nat × Nat := (n.gcallFuncFinish,n.syncChannel,n.timers)

theorem JobCase.startSignals {p : Platform} {cfg : NodeConfig} {n n' : SyncHS} {effect : Effect} {order : List Nat}
    {job : Job} (step : JobCase p cfg n order job n' effect) : n'.startSignals = n.startSignals := by
  cases step with
  | read _ _ _ step => exact step.unread SyncHS.startSignals fun _ _ _ _ _ _ => rfl
  | voteHandled _ _ _ step => exact step.unread SyncHS.startSignals fun _ _ _ => rfl
  | started _ _ step => exact step.unread SyncHS.startSignals fun _ _ _ _ _ _ _ => rfl
  | _ => rfl

/-- Where a goroutine stands. -/
inductive CommandPc where
  | append (cmd : Bytes)
  | size
  | flag
  | startFirst
  | reset
  | length
  | receive
  | startNext
  | done
  deriving DecidableEq

/-- The next instruction; `none` when there is none, or when the receive has to wait. -/
def CommandPc.step (cfg : NodeConfig) (n : SyncHS) : CommandPc → Option (SyncHS × CommandPc × List Job)
  | .append cmd => some ({ n with pendingCommands := n.pendingCommands ++ [cmd] },.size,[])
  | .size => some (n,if n.pendingCommands.length < cfg.blockSize then .done else .flag,[])
  | .flag => some (n,if n.gcallFuncFinish then .startFirst else .length,[])
  | .startFirst => some ((startTimer n).1,.reset,(startTimer n).2)
  | .reset => some ({ n with gcallFuncFinish := false },.length,[])
  | .length => some (n,if n.syncChannel = 1 then .receive else .done,[])
  | .receive => if n.syncChannel = 0 then none else some ({ n with syncChannel := n.syncChannel - 1 },.startNext,[])
  | .startNext => some ((startTimer n).1,.done,(startTimer n).2)
  | .done => none

/-- The instructions at which a goroutine has no share in a round. -/
def CommandPc.inert : CommandPc → Bool
  | .startFirst | .reset | .startNext => false
  | _ => true

/-- A goroutine that nothing interrupts. -/
def CommandPc.finish (cfg : NodeConfig) : Nat → SyncHS → CommandPc → List Job → Option (SyncHS × List Job)
  | _, n, .done, jobs => some (n,jobs)
  | 0, _, _, _ => none
  | fuel + 1, n, pc, jobs =>
    (pc.step cfg n).bind fun next => finish cfg fuel next.1 next.2.1 (jobs ++ next.2.2)

/-- Alone, the goroutine is the function as a whole. -/
theorem CommandPc.finish_append (cfg : NodeConfig) (n : SyncHS) (cmd : Bytes) :
    CommandPc.finish cfg 8 n (.append cmd) [] =
      (addCmdsAndStartTimerIfSufficientCommands cfg n cmd).map fun out => (out.1,out.2.jobs) := by
  simp only [addCmdsAndStartTimerIfSufficientCommands, CommandPc.finish, CommandPc.step, Option.bind_some]
  split
  next => rfl
  next =>
    cases n.gcallFuncFinish <;> by_cases token : n.syncChannel = 1 <;>
      simp [CommandPc.finish, CommandPc.step, startTimer, token]

/-- What an instruction does to the signals of the rounds. -/
inductive Instruction (n n' : SyncHS) : CommandPc → CommandPc → List Job → Prop where
  | quiet (pc pc' : CommandPc) : pc.inert = true → pc'.inert = true → n'.startSignals = n.startSignals →
      Instruction n n' pc pc' []
  | tests : n.gcallFuncFinish = true → n'.startSignals = n.startSignals → Instruction n n' .flag .startFirst []
  | startsFirst (job : Job) : n'.startSignals = (n.gcallFuncFinish,n.syncChannel,n.timers + 1) →
      Instruction n n' .startFirst .reset [job]
  | resets : n'.startSignals = (false,n.syncChannel,n.timers) → Instruction n n' .reset .length []
  | receives : n.syncChannel ≠ 0 → n'.startSignals = (n.gcallFuncFinish,n.syncChannel - 1,n.timers) →
      Instruction n n' .receive .startNext []
  | startsNext (job : Job) : n'.startSignals = (n.gcallFuncFinish,n.syncChannel,n.timers + 1) →
      Instruction n n' .startNext .done [job]

theorem CommandPc.step_cases {cfg : NodeConfig} {n n' : SyncHS} {pc pc' : CommandPc} {jobs : List Job}
    (ran : pc.step cfg n = some (n',pc',jobs)) : Instruction n n' pc pc' jobs := by
  cases pc with
  | append cmd =>
    simp only [CommandPc.step, Option.some.injEq, Prod.mk.injEq] at ran
    obtain ⟨rfl,rfl,rfl⟩ := ran
    exact .quiet _ _ rfl rfl rfl
  | size | length =>
    simp only [CommandPc.step, Option.some.injEq, Prod.mk.injEq] at ran
    obtain ⟨rfl,rfl,rfl⟩ := ran
    exact .quiet _ _ rfl (by split <;> rfl) rfl
  | flag =>
    simp only [CommandPc.step, Option.some.injEq, Prod.mk.injEq] at ran
    obtain ⟨rfl,rfl,rfl⟩ := ran
    split
    next set => exact .tests set rfl
    next => exact .quiet _ _ rfl rfl rfl
  | startFirst =>
    simp only [CommandPc.step, startTimer, Option.some.injEq, Prod.mk.injEq] at ran
    obtain ⟨rfl,rfl,rfl⟩ := ran
    exact .startsFirst _ rfl
  | reset =>
    simp only [CommandPc.step, Option.some.injEq, Prod.mk.injEq] at ran
    obtain ⟨rfl,rfl,rfl⟩ := ran
    exact .resets rfl
  | receive =>
    simp only [CommandPc.step] at ran
    split at ran
    next => contradiction
    next token =>
      simp only [Option.some.injEq, Prod.mk.injEq] at ran
      obtain ⟨rfl,rfl,rfl⟩ := ran
      exact .receives token rfl
  | startNext =>
    simp only [CommandPc.step, startTimer, Option.some.injEq, Prod.mk.injEq] at ran
    obtain ⟨rfl,rfl,rfl⟩ := ran
    exact .startsNext _ rfl
  | done => simp [CommandPc.step] at ran

/-! ## Interleavings -/

/-- A node with the goroutines of its commands, and how often a timer was started and has called
back. -/
structure StartingNode where
  node : Node
  routines : List CommandPc
  starts : Nat
  callbacks : Nat

inductive StartEvent where
  /-- A client command spawns its goroutine. -/
  | spawn (cmd : Bytes)
  | advance (index : Nat)
  /-- Anything else that happens to the node. -/
  | other (e : NodeEvent)

namespace StartingNode

def init : StartingNode := ⟨.init,[],0,0⟩

/-- The callback ends when its send finds room in `SyncChannel`, which has room for one. -/
def enabled (cfg : NodeConfig) (s : StartingNode) : StartEvent → Prop
  | .spawn _ => True
  | .advance index => ∃ pc ∈ s.routines[index]?, (pc.step cfg s.node.state).isSome
  | .other (.command _) => False
  | .other .callback => s.node.enabled cfg .callback ∧ s.node.state.syncChannel = 0
  | .other e => s.node.enabled cfg e

instance (cfg : NodeConfig) (s : StartingNode) (e : StartEvent) : Decidable (s.enabled cfg e) := by
  cases e with
  | other e => cases e <;> simp only [enabled] <;> infer_instance
  | _ => simp only [enabled]; infer_instance

def step (p : Platform) (cfg : NodeConfig) (s : StartingNode) : StartEvent → Option StartingNode
  | .spawn cmd => some { s with routines := s.routines ++ [.append cmd] }
  | .advance index => do
    let pc ← s.routines[index]?
    let (n,pc,jobs) ← pc.step cfg s.node.state
    some { s with
      node := { s.node with state := n, pending := s.node.pending ++ jobs }
      routines := s.routines.set index pc
      starts := s.starts + jobs.length }
  | .other e => ((nodeMachine p cfg).step s.node e).map fun node =>
    { s with node := node, callbacks := s.callbacks + if e.isCallback then 1 else 0 }

end StartingNode

def startMachine (p : Platform) (cfg : NodeConfig) : Guarded.Machine StartingNode StartEvent :=
  ⟨StartingNode.enabled cfg,StartingNode.step p cfg⟩

instance (p : Platform) (cfg : NodeConfig) (s : StartingNode) (e : StartEvent) :
    Decidable ((startMachine p cfg).enabled s e) := inferInstanceAs (Decidable (s.enabled cfg e))

/-- No goroutine tests `gcallFuncFinish` while another one, which found it true, has not reset it. -/
def TestsAlone (s : StartingNode) : StartEvent → Prop
  | .advance index => s.routines[index]? = some .flag → .startFirst ∉ s.routines ∧ .reset ∉ s.routines
  | _ => True

instance (s : StartingNode) (e : StartEvent) : Decidable (TestsAlone s e) := by
  cases e <;> simp only [TestsAlone] <;> infer_instance

/-! ## One round at a time -/

/-- The timers that run, the tokens that wait, and the goroutines that have taken a token and not
yet started a timer for it. -/
def StartingNode.rounds (s : StartingNode) : Nat :=
  s.node.state.timers + s.node.state.syncChannel + s.routines.count .startNext

/-- Until the flag is reset one goroutine may be on its way to reset it, and no round is there but
the one that it has started; afterwards there is one round. -/
structure OneRound (s : StartingNode) : Prop where
  first : s.node.state.gcallFuncFinish = true →
    s.routines.count .startFirst + s.routines.count .reset ≤ 1 ∧ s.rounds = s.routines.count .reset
  later : s.node.state.gcallFuncFinish = false →
    s.routines.count .startFirst = 0 ∧ s.routines.count .reset = 0 ∧ s.rounds = 1
  timers : s.starts = s.callbacks + s.node.state.timers

section Starts

variable {p : Platform} {cfg : NodeConfig} {s t : StartingNode} {node node' : Node}

theorem count_set_add {α : Type} [DecidableEq α] {l : List α} {i : Nat} {old : α} (here : l[i]? = some old)
    (new a : α) : (l.set i new).count a + (if old = a then 1 else 0) = l.count a + if new = a then 1 else 0 := by
  induction l generalizing i with
  | nil => simp at here
  | cons head tail ih =>
    cases i with
    | zero =>
      obtain rfl : head = old := by simpa using here
      simp only [List.set_cons_zero, List.count_cons, beq_iff_eq]
      omega
    | succ i =>
      have moved := ih (i := i) (by simpa using here)
      simp only [List.set_cons_succ, List.count_cons]
      omega

theorem signals_of_event {e : NodeEvent} (moved : (nodeMachine p cfg).step node e = some node')
    (command : ∀ cmd, e ≠ .command cmd) (callback : e ≠ .callback) :
    node'.state.startSignals = node.state.startSignals := by
  obtain ⟨_,case⟩ := nodeMachine_cases moved
  cases case with
  | connected | received _ => rfl
  | commanded cmd _ _ _ => exact absurd rfl (command cmd)
  | worked _ _ _ _ _ _ _ case => exact case.startSignals
  | calledBack _ _ _ => exact absurd rfl callback

theorem CommandPc.ne_of_inert {pc pc' : CommandPc} (inert : pc.inert = true) (busy : pc'.inert = false) : pc ≠ pc' := by
  rintro rfl
  rw [inert] at busy
  contradiction

theorem OneRound.keep (one : OneRound s) (flag : t.node.state.gcallFuncFinish = s.node.state.gcallFuncFinish)
    (starting : t.routines.count .startFirst = s.routines.count .startFirst)
    (resetting : t.routines.count .reset = s.routines.count .reset) (rounds : t.rounds = s.rounds)
    (timers : t.starts = t.callbacks + t.node.state.timers) : OneRound t := by
  constructor
  · rw [flag, starting, resetting, rounds]
    exact one.first
  · rw [flag, starting, resetting, rounds]
    exact one.later
  · exact timers

def StartingNode.put (s : StartingNode) (index : Nat) (n : SyncHS) (pc : CommandPc) (jobs : List Job) :
    StartingNode :=
  ⟨{ s.node with state := n, pending := s.node.pending ++ jobs },s.routines.set index pc,s.starts + jobs.length,
    s.callbacks⟩

section Instructions

variable {n : SyncHS} {index : Nat}

theorem OneRound.quiet (one : OneRound s) {pc pc' : CommandPc} (here : s.routines[index]? = some pc)
    (free : pc.inert = true) (free' : pc'.inert = true) (signals : n.startSignals = s.node.state.startSignals) :
    OneRound (s.put index n pc' []) := by
  simp only [SyncHS.startSignals, Prod.mk.injEq] at signals
  obtain ⟨flag,channel,running⟩ := signals
  have unmoved {busy : CommandPc} (share : busy.inert = false) :
      (s.routines.set index pc').count busy = s.routines.count busy := by
    have moved := count_set_add here pc' busy
    rwa [if_neg (CommandPc.ne_of_inert free share), if_neg (CommandPc.ne_of_inert free' share)] at moved
  have next : (s.routines.set index pc').count .startNext = s.routines.count .startNext := unmoved rfl
  apply one.keep flag (unmoved rfl) (unmoved rfl)
  · simp only [StartingNode.rounds, StartingNode.put, channel, running, next]
  · simp only [StartingNode.put, running]
    exact one.timers

theorem OneRound.tests (one : OneRound s) (here : s.routines[index]? = some .flag)
    (alone : .startFirst ∉ s.routines ∧ .reset ∉ s.routines) (set : s.node.state.gcallFuncFinish = true)
    (signals : n.startSignals = s.node.state.startSignals) : OneRound (s.put index n .startFirst []) := by
  simp only [SyncHS.startSignals, Prod.mk.injEq] at signals
  obtain ⟨flag,channel,running⟩ := signals
  obtain ⟨noStart,noReset⟩ := alone
  rw [← List.count_eq_zero] at noStart noReset
  obtain ⟨_,rounds⟩ := one.first set
  have starting := count_set_add here .startFirst .startFirst
  have resetting := count_set_add here .startFirst .reset
  have next := count_set_add here .startFirst .startNext
  simp only [reduceCtorEq, if_true, if_false, StartingNode.rounds] at starting resetting next rounds
  constructor
  · intro _
    simp only [StartingNode.rounds, StartingNode.put, channel, running]
    omega
  · intro reset
    exact absurd ((flag.trans set).symm.trans reset) (by simp)
  · simp only [StartingNode.put, running]
    exact one.timers

theorem OneRound.startsFirst (one : OneRound s) (here : s.routines[index]? = some .startFirst) (job : Job)
    (signals : n.startSignals =
      (s.node.state.gcallFuncFinish,s.node.state.syncChannel,s.node.state.timers + 1)) :
    OneRound (s.put index n .reset [job]) := by
  simp only [SyncHS.startSignals, Prod.mk.injEq] at signals
  obtain ⟨flag,channel,running⟩ := signals
  have timers := one.timers
  have starting := count_set_add here .reset .startFirst
  have resetting := count_set_add here .reset .reset
  have next := count_set_add here .reset .startNext
  simp only [reduceCtorEq, if_true, if_false] at starting resetting next
  constructor
  · intro set
    obtain ⟨few,rounds⟩ := one.first (flag.symm.trans set)
    simp only [StartingNode.rounds, StartingNode.put, channel, running] at rounds ⊢
    omega
  · intro reset
    have none := (one.later (flag.symm.trans reset)).1
    omega
  · simp only [StartingNode.put, running, List.length_singleton]
    omega

theorem OneRound.resets (one : OneRound s) (here : s.routines[index]? = some .reset)
    (signals : n.startSignals = (false,s.node.state.syncChannel,s.node.state.timers)) :
    OneRound (s.put index n .length []) := by
  simp only [SyncHS.startSignals, Prod.mk.injEq] at signals
  obtain ⟨flag,channel,running⟩ := signals
  have starting := count_set_add here .length .startFirst
  have resetting := count_set_add here .length .reset
  have next := count_set_add here .length .startNext
  simp only [reduceCtorEq, if_true, if_false] at starting resetting next
  constructor
  · intro set
    exact absurd (flag.symm.trans set) (by simp)
  · intro _
    cases before : s.node.state.gcallFuncFinish with
    | true =>
      obtain ⟨few,rounds⟩ := one.first before
      simp only [StartingNode.rounds, StartingNode.put, channel, running] at rounds ⊢
      omega
    | false =>
      have none := (one.later before).2.1
      omega
  · simp only [StartingNode.put, running]
    exact one.timers

theorem OneRound.receives (one : OneRound s) (here : s.routines[index]? = some .receive)
    (token : s.node.state.syncChannel ≠ 0)
    (signals : n.startSignals =
      (s.node.state.gcallFuncFinish,s.node.state.syncChannel - 1,s.node.state.timers)) :
    OneRound (s.put index n .startNext []) := by
  simp only [SyncHS.startSignals, Prod.mk.injEq] at signals
  obtain ⟨flag,channel,running⟩ := signals
  have starting := count_set_add here .startNext .startFirst
  have resetting := count_set_add here .startNext .reset
  have next := count_set_add here .startNext .startNext
  simp only [reduceCtorEq, if_true, if_false, Nat.add_zero] at starting resetting next
  apply one.keep flag starting resetting
  · simp only [StartingNode.rounds, StartingNode.put, channel, running]
    omega
  · simp only [StartingNode.put, running]
    exact one.timers

theorem OneRound.startsNext (one : OneRound s) (here : s.routines[index]? = some .startNext) (job : Job)
    (signals : n.startSignals =
      (s.node.state.gcallFuncFinish,s.node.state.syncChannel,s.node.state.timers + 1)) :
    OneRound (s.put index n .done [job]) := by
  simp only [SyncHS.startSignals, Prod.mk.injEq] at signals
  obtain ⟨flag,channel,running⟩ := signals
  have timers := one.timers
  have starting := count_set_add here .done .startFirst
  have resetting := count_set_add here .done .reset
  have next := count_set_add here .done .startNext
  simp only [reduceCtorEq, if_true, if_false, Nat.add_zero] at starting resetting next
  apply one.keep flag starting resetting
  · simp only [StartingNode.rounds, StartingNode.put, channel, running]
    omega
  · simp only [StartingNode.put, running, List.length_singleton]
    omega

end Instructions

theorem OneRound.advance (one : OneRound s) {index : Nat} (alone : TestsAlone s (.advance index))
    (moved : s.step p cfg (.advance index) = some t) : OneRound t := by
  obtain ⟨pc,here,stepped⟩ := Option.bind_eq_some_iff.mp moved
  obtain ⟨⟨n,pc',jobs⟩,ran,same⟩ := Option.bind_eq_some_iff.mp stepped
  obtain rfl := Option.some.inj same
  have case := CommandPc.step_cases ran
  cases case with
  | quiet _ _ free free' signals => exact one.quiet here free free' signals
  | tests set signals => exact one.tests here (alone here) set signals
  | startsFirst job signals => exact one.startsFirst here job signals
  | resets signals => exact one.resets here signals
  | receives token signals => exact one.receives here token signals
  | startsNext job signals => exact one.startsNext here job signals

theorem OneRound.other (one : OneRound s) {e : NodeEvent} (admitted : s.enabled cfg (.other e))
    (moved : s.step p cfg (.other e) = some t) : OneRound t := by
  obtain ⟨node,stepped,rfl⟩ := Option.map_eq_some_iff.mp moved
  have timers := one.timers
  have unmoved (command : ∀ cmd, e ≠ .command cmd) (callback : e ≠ .callback) (silent : e.isCallback = false) :
      OneRound { s with node := node, callbacks := s.callbacks + if e.isCallback then 1 else 0 } := by
    have signals := signals_of_event stepped command callback
    simp only [SyncHS.startSignals, Prod.mk.injEq] at signals
    obtain ⟨flag,channel,running⟩ := signals
    refine one.keep flag rfl rfl ?_ ?_
    · simp only [StartingNode.rounds, channel, running]
    · simp only [silent, Bool.false_eq_true, if_false, running]
      exact timers
  cases e with
  | command cmd => exact admitted.elim
  | callback =>
    have running : 0 < s.node.state.timers := admitted.1
    obtain ⟨⟨_,sends⟩,acted,rfl⟩ := Option.map_eq_some_iff.mp stepped
    obtain ⟨⟨n',effect⟩,ran,same⟩ := Option.map_eq_some_iff.mp acted
    obtain ⟨rfl,rfl⟩ := Prod.mk.inj same
    have ticked : n'.gcallFuncFinish = s.node.state.gcallFuncFinish ∧ n'.syncChannel = s.node.state.syncChannel + 1 ∧
        n'.timers = s.node.state.timers - 1 := by
      cases callback_cases ran <;> exact ⟨rfl,rfl,rfl⟩
    obtain ⟨flag,channel,fewer⟩ := ticked
    refine one.keep flag rfl rfl ?_ ?_
    · simp only [StartingNode.rounds, channel, fewer]
      omega
    · simp only [NodeEvent.isCallback, if_true, fewer]
      omega
  | connect => exact unmoved (by simp) (by simp) rfl
  | receive m => exact unmoved (by simp) (by simp) rfl
  | work index order => exact unmoved (by simp) (by simp) rfl

theorem OneRound.init : OneRound .init := by
  constructor
  · exact fun _ => ⟨by decide,rfl⟩
  · intro reset
    exact absurd (show true = false from reset) (by simp)
  · rfl

theorem OneRound.bound (one : OneRound s) : s.rounds ≤ 1 := by
  cases flag : s.node.state.gcallFuncFinish with
  | true =>
    obtain ⟨few,rounds⟩ := one.first flag
    omega
  | false => exact (one.later flag).2.2.le

theorem OneRound.clear (one : OneRound s) {index : Nat} {pc : CommandPc} (here : s.routines[index]? = some pc)
    (starts : pc = .startFirst ∨ pc = .startNext) : s.node.state.timers + s.node.state.syncChannel = 0 := by
  have bound := one.bound
  simp only [StartingNode.rounds] at bound
  have counted := List.count_pos_iff.mpr (List.mem_of_getElem? here)
  rcases starts with rfl | rfl
  · cases flag : s.node.state.gcallFuncFinish with
    | true =>
      obtain ⟨few,rounds⟩ := one.first flag
      simp only [StartingNode.rounds] at rounds
      omega
    | false =>
      have none := (one.later flag).1
      omega
  · omega

theorem OneRound.step (one : OneRound s) {e : StartEvent} (enabled : s.enabled cfg e) (alone : TestsAlone s e)
    (moved : s.step p cfg e = some t) : OneRound t := by
  cases e with
  | spawn cmd =>
    obtain rfl := Option.some.inj moved
    refine one.keep rfl ?_ ?_ ?_ one.timers
    · simp [List.count_append]
    · simp [List.count_append]
    · simp [StartingNode.rounds, List.count_append]
  | advance index => exact one.advance alone moved
  | other e => exact one.other enabled moved

/-- While no goroutine tests the flag between the test and the reset of another, the timers that run
and the tokens that wait are one at most: a round starts only when there is none, its timer calls back
once, and the send of the callback finds room. -/
theorem one_round_at_a_time {trace : List StartEvent}
    (run : ((startMachine p cfg).restrict TestsAlone).Run .init trace s) :
    s.node.state.timers + s.node.state.syncChannel ≤ 1 ∧
    s.starts = s.callbacks + s.node.state.timers ∧
    (0 < s.node.state.timers → s.node.state.syncChannel = 0) ∧
    ∀ (index : Nat) (pc : CommandPc), s.routines[index]? = some pc → pc = .startFirst ∨ pc = .startNext →
      s.node.state.timers + s.node.state.syncChannel = 0 := by
  have one : OneRound s := by
    refine run.invariant .init ?_
    intro s e t one admitted moved
    exact one.step (p := p) admitted.1 admitted.2 moved
  have bound := one.bound
  simp only [StartingNode.rounds] at bound
  exact ⟨by omega,one.timers,by omega,fun _ _ here starts => one.clear here starts⟩

/-- After the first callback two goroutines find its token. One has received it and is about to start
a timer, the other waits for the next. -/
theorem two_goroutines_one_token : ∃ s,
    ((startMachine transparent (.complete 2 2 true .plain 0)).restrict TestsAlone).Run .init
      [.other .connect,.spawn [1],.spawn [2],.advance 0,.advance 1,.advance 0,.advance 0,.advance 0,.advance 0,
        .advance 1,.advance 1,.other .callback,.spawn [3],.advance 2,.advance 2,.advance 2,.advance 1,.advance 2,
        .advance 1] s ∧
      s.starts = 1 ∧ s.callbacks = 1 ∧ s.routines[1]? = some .startNext ∧ s.routines[2]? = some .receive ∧
      s.node.state.timers + s.node.state.syncChannel = 0 := by
  obtain ⟨s,run,starts,callbacks,second,third⟩ : ∃ s,
      ((startMachine transparent (.complete 2 2 true .plain 0)).restrict TestsAlone).Run .init
        [.other .connect,.spawn [1],.spawn [2],.advance 0,.advance 1,.advance 0,.advance 0,.advance 0,.advance 0,
          .advance 1,.advance 1,.other .callback,.spawn [3],.advance 2,.advance 2,.advance 2,.advance 1,.advance 2,
          .advance 1] s ∧
      s.starts = 1 ∧ s.callbacks = 1 ∧ s.routines[1]? = some .startNext ∧ s.routines[2]? = some .receive := by
    apply Guarded.Machine.reaches
    decide +kernel
  exact ⟨s,run,starts,callbacks,second,third,(one_round_at_a_time run).2.2.2 1 .startNext second (Or.inr rfl)⟩

/-- Two commands cross between the test of the flag and its reset: both start a timer, and after one
callback the send of the other has no room. -/
theorem two_rounds_at_once :
    (∃ s, (startMachine transparent (.complete 2 2 true .plain 0)).Run .init
      [.other .connect,.spawn [1],.spawn [2],.advance 0,.advance 0,.advance 0,.advance 1,.advance 1,.advance 1,
        .advance 0,.advance 1] s ∧ s.node.state.timers + s.node.state.syncChannel = 2) ∧
    ∃ s, (startMachine transparent (.complete 2 2 true .plain 0)).Run .init
      [.other .connect,.spawn [1],.spawn [2],.advance 0,.advance 0,.advance 0,.advance 1,.advance 1,.advance 1,
        .advance 0,.advance 1,.other .callback] s ∧ 0 < s.node.state.timers ∧ s.node.state.syncChannel = 1 := by
  constructor
  · exact Guarded.Machine.reaches (fun s : StartingNode => s.node.state.timers + s.node.state.syncChannel = 2)
      (by decide +kernel)
  · exact Guarded.Machine.reaches
      (fun s : StartingNode => 0 < s.node.state.timers ∧ s.node.state.syncChannel = 1) (by decide +kernel)

end Starts

end ReputationSMR
