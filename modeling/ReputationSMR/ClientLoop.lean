import ReputationSMR.ClientAcks
import ReputationSMR.Machine

/-! The goroutines of the client. `main` numbers the commands: it sends the first ones itself and puts
the others into a channel; `handleVotes` takes a command from the channel for each transaction of a
block that it has seen committed; each command is sent by a goroutine of its own, which writes it to
the streams of all nodes under one mutex. -/
namespace ReputationSMR

open Wire FiniteMap

/-! ## Numbered commands -/

/-- `binary.LittleEndian` with the given number of bytes. -/
def littleEndian : Nat → Nat → Bytes
  | 0, _ => []
  | width + 1, k => UInt8.ofNat (k % 256) :: littleEndian width (k / 256)

def fromLittleEndian : Bytes → Nat
  | [] => 0
  | b :: rest => b.toNat + 256 * fromLittleEndian rest

theorem from_littleEndian (width k : Nat) (rest : Bytes) :
    fromLittleEndian ((littleEndian width k ++ rest).take width) = k % 256 ^ width := by
  induction width generalizing k with
  | zero => simp [fromLittleEndian,Nat.mod_one]
  | succ width ih =>
    have digit : (UInt8.ofNat (k % 256)).toNat = k % 256 := by simp
    rw [littleEndian, List.cons_append, List.take_succ_cons, fromLittleEndian, ih, digit, pow_succ',
      Nat.mod_mul]

/-- What the client is started with; the block size is a `uint64`. -/
structure ClientSetup where
  blksize : Nat
  payload : Nat
  faultNum : Nat
  small : blksize < 2^64

def ClientSetup.command (c : ClientSetup) (idx : Nat) : Bytes := littleEndian 8 idx ++ List.replicate c.payload 0

theorem ClientSetup.command_injective (c : ClientSetup) {a b : Nat} (below : a < 2^64) (below' : b < 2^64)
    (same : c.command a = c.command b) : a = b := by
  have value (k : Nat) (fits : k < 2^64) : fromLittleEndian ((c.command k).take 8) = k := by
    rw [command, from_littleEndian]
    exact Nat.mod_eq_of_lt fits
  rw [← value a below, ← value b below', same]

/-! ## The machine -/

def ClientVotes.replaced (v : ClientVotes) : Nat := (v.sent.map Prod.snd).sum

/-- The goroutines of the client and what they share. The last three fields are its history: the
commands for which a goroutine was started, those that were written, and the acknowledgements that
`handleVotes` has taken. -/
structure ClientState where
  filling : Bool
  idx : Nat
  cmdChannel : List Bytes
  voteChannel : List (Option CommitAck)
  votes : ClientVotes
  owed : Nat
  senders : List Bytes
  streams : Nat → List Bytes
  sent : List Bytes
  written : List Bytes
  taken : List (Option CommitAck)

inductive ClientEvent where
  | main
  | ack (ack : Option CommitAck)
  | vote
  | replace
  | handAck (ack : Option CommitAck)
  | handCommand
  | send (index : Nat) (lost : List Nat)

namespace ClientState

def init : ClientState := ⟨false,0,[],[],.init,0,[],fun _ => [],[],[],[]⟩

variable (c : ClientSetup) (p : Platform) (s : ClientState)

def spawn (cmd : Bytes) : ClientState := { s with senders := s.senders ++ [cmd], sent := s.sent ++ [cmd] }

/-- An acknowledgement has been counted, and it may call for new commands. -/
def counted (ack : Option CommitAck) (votes : ClientVotes) : ClientState :=
  { s with
    votes := votes
    owed := votes.replaced - s.votes.replaced
    taken := s.taken ++ [ack] }

/-- `none` when the client panics at the acknowledgement. -/
def count (ack : Option CommitAck) : Option ClientState := (s.votes.receive p c.faultNum ack).map (s.counted ack)

/-- The loop over the writers, which holds the mutex. A writer that fails drops the command. -/
def write (cmd : Bytes) (lost : List Nat) : ClientState :=
  { s with
    streams := fun j => if j ∈ lost then s.streams j else s.streams j ++ [cmd]
    written := s.written ++ [cmd] }

/-- A channel with capacity zero passes a value on only from one goroutine to another. -/
def enabled : ClientEvent → Prop
  | .main => s.filling = false ∨ s.cmdChannel.length < c.blksize
  | .ack _ => s.voteChannel.length < c.blksize
  | .vote => s.owed = 0 ∧ s.voteChannel ≠ []
  | .replace => 0 < s.owed ∧ s.cmdChannel ≠ []
  | .handAck _ => c.blksize = 0 ∧ s.owed = 0
  | .handCommand => c.blksize = 0 ∧ s.filling = true ∧ 0 < s.owed
  | .send index _ => index < s.senders.length

instance (e : ClientEvent) : Decidable (s.enabled c e) :=
  match e with
  | .main => inferInstanceAs (Decidable (_ ∨ _))
  | .vote | .replace | .handAck _ | .handCommand => inferInstanceAs (Decidable (_ ∧ _))
  | .ack _ | .send _ _ => inferInstanceAs (Decidable (_ < _))

def step : ClientEvent → Option ClientState
  | .main =>
    if s.filling then some { s with cmdChannel := s.cmdChannel ++ [c.command s.idx], idx := wrap64 (s.idx + 1) }
    else if s.idx < c.blksize then some { s.spawn (c.command s.idx) with idx := wrap64 (s.idx + 1) }
    else some { s with filling := true }
  | .ack ack => some { s with voteChannel := s.voteChannel ++ [ack] }
  | .vote => s.voteChannel.head?.bind fun ack =>
    (s.count c p ack).map fun s => { s with voteChannel := s.voteChannel.tail }
  | .replace => s.cmdChannel.head?.map fun cmd => { s.spawn cmd with cmdChannel := s.cmdChannel.tail, owed := s.owed - 1 }
  | .handAck ack => s.count c p ack
  | .handCommand => some { s.spawn (c.command s.idx) with idx := wrap64 (s.idx + 1), owed := s.owed - 1 }
  | .send index lost => s.senders[index]?.map fun cmd => { s.write cmd lost with senders := s.senders.eraseIdx index }

end ClientState

def clientMachine (c : ClientSetup) (p : Platform) : Guarded.Machine ClientState ClientEvent :=
  ⟨fun s e => s.enabled c e,fun s e => s.step c p e⟩

instance (c : ClientSetup) (p : Platform) (s : ClientState) (e : ClientEvent) :
    Decidable ((clientMachine c p).enabled s e) := inferInstanceAs (Decidable (s.enabled c e))

/-! ## The steps -/

/-- What the client can do, one case for each branch. -/
inductive ClientCase (c : ClientSetup) (p : Platform) (s : ClientState) : ClientEvent → ClientState → Prop where
  | sends : s.filling = false → s.idx < c.blksize →
      ClientCase c p s .main { s.spawn (c.command s.idx) with idx := wrap64 (s.idx + 1) }
  | switches : s.filling = false → c.blksize ≤ s.idx → ClientCase c p s .main { s with filling := true }
  | fills : s.filling = true → s.cmdChannel.length < c.blksize →
      ClientCase c p s .main { s with cmdChannel := s.cmdChannel ++ [c.command s.idx], idx := wrap64 (s.idx + 1) }
  | acked (ack : Option CommitAck) : ClientCase c p s (.ack ack) { s with voteChannel := s.voteChannel ++ [ack] }
  | counts (ack : Option CommitAck) (rest : List (Option CommitAck)) (votes : ClientVotes) : s.owed = 0 →
      s.voteChannel = ack :: rest → s.votes.receive p c.faultNum ack = some votes →
      ClientCase c p s .vote { s.counted ack votes with voteChannel := rest }
  | replaces (cmd : Bytes) (rest : List Bytes) : 0 < s.owed → s.cmdChannel = cmd :: rest →
      ClientCase c p s .replace { s.spawn cmd with cmdChannel := rest, owed := s.owed - 1 }
  | handsAck (ack : Option CommitAck) (votes : ClientVotes) : s.owed = 0 → s.votes.receive p c.faultNum ack = some votes →
      ClientCase c p s (.handAck ack) (s.counted ack votes)
  | handsCommand : c.blksize = 0 → s.filling = true → 0 < s.owed → ClientCase c p s .handCommand
      { s.spawn (c.command s.idx) with idx := wrap64 (s.idx + 1), owed := s.owed - 1 }
  | writes (index : Nat) (lost : List Nat) (cmd : Bytes) : s.senders[index]? = some cmd →
      ClientCase c p s (.send index lost) { s.write cmd lost with senders := s.senders.eraseIdx index }

theorem ClientState.step_cases {c : ClientSetup} {p : Platform} {s t : ClientState} {e : ClientEvent}
    (enabled : s.enabled c e) (stepped : s.step c p e = some t) : ClientCase c p s e t := by
  cases e with
  | main =>
    simp only [step] at stepped
    split at stepped
    next filling =>
      obtain rfl := Option.some.inj stepped
      exact .fills filling (enabled.resolve_left (by simp [filling]))
    next first =>
      have first := Bool.not_eq_true _ ▸ first
      split at stepped
      next more =>
        obtain rfl := Option.some.inj stepped
        exact .sends first more
      next enough =>
        obtain rfl := Option.some.inj stepped
        exact .switches first (not_lt.mp enough)
  | ack ack =>
    obtain rfl := Option.some.inj stepped
    exact .acked ack
  | vote =>
    cases waiting : s.voteChannel with
    | nil => exact absurd waiting enabled.2
    | cons ack rest =>
      simp only [step, waiting, List.head?_cons, Option.bind_some, count, Option.map_map] at stepped
      obtain ⟨votes,received,rfl⟩ := Option.map_eq_some_iff.mp stepped
      have tail : (s.counted ack votes).voteChannel.tail = rest := congrArg List.tail waiting
      rw [Function.comp_apply, tail]
      exact .counts ack rest votes enabled.1 waiting received
  | replace =>
    cases waiting : s.cmdChannel with
    | nil => exact absurd waiting enabled.2
    | cons cmd rest =>
      simp only [step, waiting, List.head?_cons, List.tail_cons, Option.map_some, Option.some.injEq] at stepped
      subst stepped
      exact .replaces cmd rest enabled.1 waiting
  | handAck ack =>
    obtain ⟨votes,received,rfl⟩ := Option.map_eq_some_iff.mp stepped
    exact .handsAck ack votes enabled.2 received
  | handCommand =>
    obtain rfl := Option.some.inj stepped
    exact .handsCommand enabled.1 enabled.2.1 enabled.2.2
  | send index lost =>
    obtain ⟨cmd,found,rfl⟩ := Option.map_eq_some_iff.mp stepped
    exact .writes index lost cmd found

/-! ## What every run keeps -/

section Runs

variable {c : ClientSetup} {p : Platform} {s t : ClientState}

theorem wrap64_succ (k : Nat) : wrap64 (wrap64 k + 1) = wrap64 (k + 1) := by
  rw [wrap64, wrap64, Nat.mod_add_mod]
  rfl

def ClientState.started (c : ClientSetup) (s : ClientState) : Nat := if s.filling then c.blksize else s.idx

/-- `main` has built a number of commands; they were sent in the order of their numbers, and the
last ones are still in the channel. -/
structure Numbered (c : ClientSetup) (s : ClientState) (built : Nat) : Prop where
  idx : s.idx = wrap64 built
  commands : s.sent ++ s.cmdChannel = (List.range built).map fun k => c.command (wrap64 k)
  room : s.cmdChannel.length ≤ c.blksize
  first : s.filling = false → s.cmdChannel = [] ∧ built ≤ c.blksize

/-- A command is sent as one of the first ones, or for a command that was committed. -/
structure Balanced (c : ClientSetup) (p : Platform) (s : ClientState) : Prop where
  votes : handleVotes p c.faultNum s.taken = some s.votes
  balance : s.sent.length + s.owed = s.started c + s.votes.replaced

/-- Goroutines write every command once, and a stream has what was not lost. -/
structure Written (s : ClientState) : Prop where
  all : (s.written ++ s.senders).Perm s.sent
  streams : ∀ j, (s.streams j).Sublist s.written

theorem range_succ_commands (c : ClientSetup) (built : Nat) :
    (List.range (built + 1)).map (fun k => c.command (wrap64 k)) =
      (List.range built).map (fun k => c.command (wrap64 k)) ++ [c.command (wrap64 built)] := by
  rw [List.range_succ, List.map_append, List.map_singleton]

theorem Numbered.step {built : Nat} (numbered : Numbered c s built) {e : ClientEvent} (case : ClientCase c p s e t) :
    ∃ built', Numbered c t built' := by
  have next : wrap64 (s.idx + 1) = wrap64 (built + 1) := by rw [numbered.idx, wrap64_succ]
  cases case with
  | sends first more =>
    obtain ⟨empty,few⟩ := numbered.first first
    have small := c.small
    have exact : s.idx = built := numbered.idx.trans (Nat.mod_eq_of_lt (by omega))
    refine ⟨built + 1,next,?_,numbered.room,fun _ => ⟨empty,by omega⟩⟩
    rw [range_succ_commands, ← numbered.commands, ← numbered.idx]
    simp [ClientState.spawn,empty]
  | switches _ _ => exact ⟨built,numbered.idx,numbered.commands,numbered.room,fun first => Bool.noConfusion first⟩
  | fills filling room =>
    refine ⟨built + 1,next,?_,?_,fun first => Bool.noConfusion (filling.symm.trans first)⟩
    · rw [range_succ_commands, ← numbered.commands, ← numbered.idx, List.append_assoc]
    · simpa using Nat.succ_le_of_lt room
  | acked ack => exact ⟨built,numbered.idx,numbered.commands,numbered.room,numbered.first⟩
  | counts ack rest votes _ _ _ => exact ⟨built,numbered.idx,numbered.commands,numbered.room,numbered.first⟩
  | handsAck ack votes _ _ => exact ⟨built,numbered.idx,numbered.commands,numbered.room,numbered.first⟩
  | replaces cmd rest _ waiting =>
    have room := numbered.room
    rw [waiting] at room
    refine ⟨built,numbered.idx,?_,Nat.le_of_succ_le room,fun first => ?_⟩
    · rw [← numbered.commands, waiting]
      simp [ClientState.spawn]
    · exact absurd ((numbered.first first).1.symm.trans waiting) (List.cons_ne_nil _ _).symm
  | handsCommand unbuffered filling _ =>
    have empty : s.cmdChannel = [] := List.length_eq_zero_iff.mp (Nat.le_zero.mp (unbuffered ▸ numbered.room))
    refine ⟨built + 1,next,?_,numbered.room,fun first => Bool.noConfusion (filling.symm.trans first)⟩
    rw [range_succ_commands, ← numbered.commands, ← numbered.idx]
    simp [ClientState.spawn,empty]
  | writes index lost cmd _ => exact ⟨built,numbered.idx,numbered.commands,numbered.room,numbered.first⟩

theorem ClientVotes.replaced_le {v v' : ClientVotes} {faultNum : Nat} {ack : Option CommitAck}
    (received : v.receive p faultNum ack = some v') : v.replaced ≤ v'.replaced := by
  have kept (k : Nat × Hash) : (v.addVote k).sent = v.sent := by
    rw [addVote]
    split <;> rfl
  cases ack with
  | none => exact (congrArg ClientVotes.replaced (Option.some.inj received)).le
  | some ack =>
    rw [receive] at received
    split at received
    next =>
      obtain rfl := Option.some.inj received
      simp only [handleVote, commit, replaced]
      split
      next => rw [kept]
      next =>
        split
        next => simp [kept]
        next => exact (congrArg (fun sent => (sent.map Prod.snd).sum) (kept _)).ge
    next => contradiction

theorem Balanced.count (balanced : Balanced c p s) (idle : s.owed = 0) {ack : Option CommitAck} {votes : ClientVotes}
    (received : s.votes.receive p c.faultNum ack = some votes) : Balanced c p (s.counted ack votes) := by
  refine ⟨?_,?_⟩
  · change handleVotes p c.faultNum (s.taken ++ [ack]) = some votes
    rw [handleVotes_snoc, balanced.votes]
    exact received
  · have balance := balanced.balance
    have more := ClientVotes.replaced_le received
    change s.sent.length + (votes.replaced - s.votes.replaced) = s.started c + votes.replaced
    omega

theorem Balanced.step (balanced : Balanced c p s) {built : Nat} (numbered : Numbered c s built) {e : ClientEvent}
    (case : ClientCase c p s e t) : Balanced c p t := by
  have balance := balanced.balance
  cases case with
  | sends first more =>
    refine ⟨balanced.votes,?_⟩
    have small := c.small
    have next : wrap64 (s.idx + 1) = s.idx + 1 := Nat.mod_eq_of_lt (by omega)
    simp only [ClientState.started, first, Bool.false_eq_true, if_false, ClientState.spawn, List.length_append,
      List.length_singleton, next] at balance ⊢
    omega
  | switches first enough =>
    refine ⟨balanced.votes,?_⟩
    have small := c.small
    have few := (numbered.first first).2
    have exact : s.idx = built := numbered.idx.trans (Nat.mod_eq_of_lt (by omega))
    simp only [ClientState.started, first, Bool.false_eq_true, if_false, if_true] at balance ⊢
    omega
  | fills filling _ =>
    refine ⟨balanced.votes,?_⟩
    simp only [ClientState.started, filling, if_true] at balance ⊢
    exact balance
  | acked ack => exact ⟨balanced.votes,balance⟩
  | counts ack rest votes idle _ received =>
    exact ⟨(balanced.count idle received).votes,(balanced.count idle received).balance⟩
  | handsAck ack votes idle received => exact balanced.count idle received
  | replaces cmd rest owed _ =>
    refine ⟨balanced.votes,?_⟩
    change (s.sent ++ [cmd]).length + (s.owed - 1) = s.started c + s.votes.replaced
    rw [List.length_append, List.length_singleton]
    omega
  | handsCommand _ filling owed =>
    refine ⟨balanced.votes,?_⟩
    simp only [ClientState.started, filling, if_true, ClientState.spawn, List.length_append, List.length_singleton]
      at balance ⊢
    omega
  | writes index lost cmd _ => exact ⟨balanced.votes,balance⟩

theorem Written.step (written : Written s) {e : ClientEvent} (case : ClientCase c p s e t) : Written t := by
  have spawned (cmd : Bytes) : (s.written ++ (s.senders ++ [cmd])).Perm (s.sent ++ [cmd]) := by
    rw [← List.append_assoc]
    exact written.all.append_right [cmd]
  cases case with
  | sends _ _ => exact ⟨spawned _,written.streams⟩
  | replaces cmd _ _ _ => exact ⟨spawned cmd,written.streams⟩
  | handsCommand _ _ _ => exact ⟨spawned _,written.streams⟩
  | switches _ _ => exact ⟨written.all,written.streams⟩
  | fills _ _ => exact ⟨written.all,written.streams⟩
  | acked ack => exact ⟨written.all,written.streams⟩
  | counts ack rest votes _ _ _ => exact ⟨written.all,written.streams⟩
  | handsAck ack votes _ _ => exact ⟨written.all,written.streams⟩
  | writes index lost cmd found =>
    constructor
    · have inside := (List.getElem?_eq_some_iff.mp found).1
      have moved : (cmd :: s.senders.eraseIdx index).Perm s.senders := by
        have perm := List.getElem_cons_eraseIdx_perm inside
        rwa [(List.getElem?_eq_some_iff.mp found).2] at perm
      change ((s.written ++ [cmd]) ++ s.senders.eraseIdx index).Perm s.sent
      rw [List.append_assoc, List.singleton_append]
      exact (moved.append_left s.written).trans written.all
    · intro j
      simp only [ClientState.write]
      split
      next => exact (written.streams j).trans (List.sublist_append_left _ _)
      next => exact (written.streams j).append (List.Sublist.refl _)

/-- In every run of the client, however its goroutines interleave: the commands for which it starts
goroutines are numbered in order; there is one for each of the first ones and for each transaction of
a block counted as committed, except those that are still owed; and every stream carries commands that
were sent, in the same order as the other streams and none twice. -/
theorem commands_sent_once {trace : List ClientEvent} (run : (clientMachine c p).Run .init trace s) :
    s.sent = (List.range s.sent.length).map (fun k => c.command (wrap64 k)) ∧
    (∃ votes, handleVotes p c.faultNum s.taken = some votes ∧ s.sent.length + s.owed = s.started c + votes.replaced) ∧
    (s.written ++ s.senders).Perm s.sent ∧
    ∀ j, (s.streams j).Sublist s.written ∧ (s.sent.length ≤ 2^64 → (s.streams j).Nodup) := by
  obtain ⟨⟨built,numbered⟩,balanced,written⟩ : (∃ built, Numbered c s built) ∧ Balanced c p s ∧ Written s := by
    refine run.invariant (I := fun s => (∃ built, Numbered c s built) ∧ Balanced c p s ∧ Written s) ?_ ?_
    · exact ⟨⟨0,rfl,rfl,Nat.zero_le _,fun _ => ⟨rfl,Nat.zero_le _⟩⟩,⟨rfl,rfl⟩,List.Perm.refl [],fun _ => .refl _⟩
    rintro s e t ⟨⟨built,numbered⟩,balanced,written⟩ enabled stepped
    have case := ClientState.step_cases enabled stepped
    exact ⟨numbered.step case,balanced.step numbered case,written.step case⟩
  have sent : s.sent = (List.range s.sent.length).map fun k => c.command (wrap64 k) := by
    have first := congrArg (List.take s.sent.length) numbered.commands
    have few : s.sent.length ≤ built := by
      have length := congrArg List.length numbered.commands
      simp only [List.length_append, List.length_map, List.length_range] at length
      omega
    rwa [List.take_left, ← List.map_take, List.take_range, min_eq_left few] at first
  refine ⟨sent,⟨s.votes,balanced.votes,balanced.balance⟩,written.all,fun j => ⟨written.streams j,fun few => ?_⟩⟩
  have distinct : s.sent.Nodup := by
    rw [sent]
    refine List.Nodup.map_on ?_ List.nodup_range
    intro a inside b inside' same
    have below (k : Nat) (member : k ∈ List.range s.sent.length) : k < 2^64 := by
      have := List.mem_range.mp member
      omega
    rw [wrap64, wrap64, Nat.mod_eq_of_lt (below a inside), Nat.mod_eq_of_lt (below b inside')] at same
    exact c.command_injective (below a inside) (below b inside') same
  have written' := (written.all.nodup_iff.mpr distinct).sublist (List.sublist_append_left _ _)
  exact written'.sublist (written.streams j)

end Runs

/-- The client sends its first command, sees an empty block, and sends the next one; the goroutines
write in the other order. -/
def clientExchange : List ClientEvent :=
  [.main,.main,.main,.ack (some ⟨some ⟨none,none,List.replicate 32 5⟩⟩),.vote,.replace,.send 1 [],.send 0 []]

theorem second_command_overtakes : ∃ s : ClientState, s.sent.length = 2 ∧ (s.streams 0).length = 2 ∧
    s.sent = [littleEndian 8 0,littleEndian 8 1] ∧ (s.streams 0).Nodup := by
  obtain ⟨s,run,two,both⟩ : ∃ s, (clientMachine ⟨1,0,0,by decide⟩ transparent).Run .init clientExchange s ∧
      s.sent.length = 2 ∧ (s.streams 0).length = 2 := by
    apply Guarded.Machine.reaches
    decide +kernel
  obtain ⟨sent,_,_,streams⟩ := commands_sent_once run
  refine ⟨s,two,both,?_,(streams 0).2 (by rw [two]; norm_num)⟩
  rw [sent, two]
  rfl

end ReputationSMR
