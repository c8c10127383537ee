import ReputationSMR.Reputation

/-! `handleVotes` of the client. It counts the acknowledgements of a block in a map from heights to
maps from hashes to counts. The first acknowledgement of a hash makes a new inner map for the
height, so what was counted for another hash at this height is forgotten, and with it that the other
block was committed. -/
namespace ReputationSMR

open Wire FiniteMap

structure CommitAck where
  block : Option ProtoBlock

namespace CommitAck

def height (ack : CommitAck) : Nat := ((ack.block.bind ProtoBlock.header).map ProtoHeader.height).getD 0

def hashField (ack : CommitAck) : Bytes := (ack.block.map ProtoBlock.blockHash).getD []

def bhash (p : Platform) (ack : CommitAck) : Hash := p.toHash ack.hashField

def txs (ack : CommitAck) : List Bytes := ((ack.block.bind ProtoBlock.body).map ProtoBody.txs).getD []

def key (p : Platform) (ack : CommitAck) : Nat × Hash := (ack.height,ack.bhash p)

/-- How many commands replace those of the block. -/
def replacements (ack : CommitAck) : Nat := if ack.txs = [] then 1 else ack.txs.length

end CommitAck

/-- The local maps of `handleVotes`, and the commands that it has sent, with the pair for which they
were sent. -/
structure ClientVotes where
  voteMap : Map Nat (Map Hash Nat)
  commitMap : Map Nat (Map Hash Bool)
  sent : List ((Nat × Hash) × Nat)

namespace ClientVotes

def init : ClientVotes := ⟨∅,∅,[]⟩

def count (s : ClientVotes) (k : Nat × Hash) : Nat := (at2 s.voteMap k.1 k.2).getD 0

def committed (s : ClientVotes) (k : Nat × Hash) : Bool := (at2 s.commitMap k.1 k.2).getD false

def sends (s : ClientVotes) (k : Nat × Hash) : Nat := s.sent.countP fun entry => entry.1 = k

def addVote (s : ClientVotes) (k : Nat × Hash) : ClientVotes :=
  match at2 s.voteMap k.1 k.2 with
  | none =>
    -- the small maps replace the rows of the height
    { s with
      voteMap := s.voteMap.insert k.1 ((∅ : Map Hash Nat).insert k.2 1)
      commitMap := s.commitMap.insert k.1 ((∅ : Map Hash Bool).insert k.2 false) }
  | some votes => { s with voteMap := put2 s.voteMap k.1 k.2 (wrap64 (votes + 1)) }

def commit (s : ClientVotes) (k : Nat × Hash) (replacements : Nat) : ClientVotes :=
  let old := s.committed k
  let s := { s with commitMap := put2 s.commitMap k.1 k.2 true }
  let new := s.committed k
  if old ≠ new then { s with sent := s.sent ++ [(k,replacements)] } else s

def handleVote (p : Platform) (faultNum : Nat) (s : ClientVotes) (ack : CommitAck) : ClientVotes :=
  let s := s.addVote (ack.key p)
  if s.count (ack.key p) ≤ faultNum then s else s.commit (ack.key p) ack.replacements

/-- An iteration; a message that is not an acknowledgement arrives as nil, and a block hash that is too
short to be copied, or absent with its block, makes the client panic. -/
def receive (p : Platform) (faultNum : Nat) (s : ClientVotes) : Option CommitAck → Option ClientVotes
  | none => some s
  | some ack => if p.copies ack.hashField then some (s.handleVote p faultNum ack) else none

end ClientVotes

/-- The loop; `none` after a panic. -/
def handleVotes (p : Platform) (faultNum : Nat) (acks : List (Option CommitAck)) : Option ClientVotes :=
  acks.foldlM (ClientVotes.receive p faultNum) .init

/-! ## What the client has received -/

def acknowledged (p : Platform) (acks : List (Option CommitAck)) (k : Nat × Hash) : Nat :=
  acks.countP fun ack => ack.map (CommitAck.key p) = some k

/-- The count, the mark and the replacements of every pair are those of the acknowledgements. -/
structure Tallied (p : Platform) (faultNum : Nat) (acks : List (Option CommitAck)) (s : ClientVotes) : Prop where
  count : ∀ k, s.count k = acknowledged p acks k
  committed : ∀ k, s.committed k = true ↔ faultNum < acknowledged p acks k
  sent : ∀ k, s.sends k = if faultNum < acknowledged p acks k then 1 else 0

def Readable (p : Platform) (acks : List (Option CommitAck)) : Prop := ∀ a, some a ∈ acks → p.copies a.hashField

def Agreeing (p : Platform) (acks : List (Option CommitAck)) : Prop :=
  ∀ a b, some a ∈ acks → some b ∈ acks → a.height = b.height → a.bhash p = b.bhash p

def bump (received : Nat × Hash → Nat) (k k' : Nat × Hash) : Nat := received k' + if k' = k then 1 else 0

section Acks

variable {p : Platform} {faultNum : Nat} {acks : List (Option CommitAck)} {s : ClientVotes} {k k' : Nat × Hash}

theorem handleVotes_snoc (acks : List (Option CommitAck)) (ack : Option CommitAck) :
    handleVotes p faultNum (acks ++ [ack]) =
      (handleVotes p faultNum acks).bind fun s => s.receive p faultNum ack := by
  rw [handleVotes, List.foldlM_append]
  exact Option.bind_congr fun s _ => by rw [List.foldlM_cons]; simp

theorem acknowledged_snoc (acks : List (Option CommitAck)) (ack : CommitAck) :
    acknowledged p (acks ++ [some ack]) = bump (acknowledged p acks) (ack.key p) := by
  funext k
  simp [acknowledged, bump, List.countP_append, eq_comm]

theorem acknowledged_nil (acks : List (Option CommitAck)) :
    acknowledged p (acks ++ [none]) = acknowledged p acks := by
  funext k
  simp [acknowledged, List.countP_append]

theorem acknowledged_pos : 0 < acknowledged p acks k ↔ ∃ ack, some ack ∈ acks ∧ ack.key p = k := by
  simp [acknowledged, List.countP_pos_iff]

theorem Agreeing.keys (agreeing : Agreeing p acks) (first : 0 < acknowledged p acks k)
    (second : 0 < acknowledged p acks k') (height : k.1 = k'.1) : k = k' := by
  obtain ⟨a,member,rfl⟩ := acknowledged_pos.mp first
  obtain ⟨b,member',rfl⟩ := acknowledged_pos.mp second
  exact Prod.ext height (agreeing a b member member' height)

/-! ## A pair keeps its entries -/

/-- The entries of a pair after some acknowledgements; `marked` of them were seen when the mark was
last set. -/
structure Entries (faultNum : Nat) (counted marked : Nat × Hash → Nat) (s : ClientVotes) : Prop where
  votes : ∀ k, at2 s.voteMap k.1 k.2 = if counted k = 0 then none else some (counted k)
  commits : ∀ k, at2 s.commitMap k.1 k.2 = if counted k = 0 then none else some (decide (faultNum < marked k))
  sends : ∀ k, s.sends k = if faultNum < marked k then 1 else 0

variable {received : Nat × Hash → Nat}

theorem bump_self : bump received k k = received k + 1 := by simp [bump]

theorem bump_other (other : k' ≠ k) : bump received k k' = received k' := by simp [bump, other]

theorem at2_open {β : Type} {m : Map Nat (Map Hash β)}
    (silent : ∀ k', k'.1 = k.1 → k' ≠ k → at2 m k'.1 k'.2 = none) (x : β) (k' : Nat × Hash) :
    at2 (m.insert k.1 ((∅ : Map Hash β).insert k.2 x)) k'.1 k'.2 = if k' = k then some x else at2 m k'.1 k'.2 := by
  rw [at2_insert, lookup_insert]
  by_cases same : k' = k
  · subst same
    simp
  · rw [if_neg same]
    split
    next height =>
      have apart : k'.2 ≠ k.2 := fun hash => same (Prod.ext height hash)
      simp [apart, silent k' height same]
    next => rfl

theorem at2_write {β : Type} (m : Map Nat (Map Hash β)) (x : β) (k' : Nat × Hash) :
    at2 (put2 m k.1 k.2 x) k'.1 k'.2 = if k' = k then some x else at2 m k'.1 k'.2 := by
  rw [at2_put2]
  simp only [Prod.ext_iff]

theorem Entries.addVote (entries : Entries faultNum received received s)
    (alone : ∀ k', 0 < received k' → k'.1 = k.1 → k' = k) (fits : received k + 1 < 2^64) :
    Entries faultNum (bump received k) received (s.addVote k) := by
  by_cases new : received k = 0
  · have absent : at2 s.voteMap k.1 k.2 = none := by rw [entries.votes, if_pos new]
    have silent (k' : Nat × Hash) (height : k'.1 = k.1) (other : k' ≠ k) : received k' = 0 := by
      by_contra positive
      exact other (alone k' (Nat.pos_of_ne_zero positive) height)
    simp only [ClientVotes.addVote, absent]
    constructor
    · intro k'
      rw [at2_open fun k' height other => by rw [entries.votes, if_pos (silent k' height other)]]
      split
      next same => simp [same, bump_self, new]
      next other =>
        rw [bump_other other]
        exact entries.votes k'
    · intro k'
      rw [at2_open fun k' height other => by rw [entries.commits, if_pos (silent k' height other)]]
      split
      next same => simp [same, bump_self, new]
      next other =>
        rw [bump_other other]
        exact entries.commits k'
    · exact entries.sends
  · have present : at2 s.voteMap k.1 k.2 = some (received k) := by rw [entries.votes, if_neg new]
    simp only [ClientVotes.addVote, present]
    constructor
    · intro k'
      rw [at2_write, wrap64, Nat.mod_eq_of_lt fits]
      split
      next same => simp [same, bump_self]
      next other =>
        rw [bump_other other]
        exact entries.votes k'
    · intro k'
      by_cases same : k' = k
      · subst same
        rw [entries.commits, if_neg new, if_neg (by simp [bump_self])]
      · rw [bump_other same]
        exact entries.commits k'
    · exact entries.sends

theorem Entries.commit {votes : Nat × Hash → Nat} (entries : Entries faultNum votes received s)
    (counted : votes k ≠ 0) (enough : faultNum < received k + 1) (replacements : Nat) :
    Entries faultNum votes (bump received k) (s.commit k replacements) := by
  have old : s.committed k = decide (faultNum < received k) := by
    rw [ClientVotes.committed, entries.commits, if_neg counted]
    rfl
  have marked (k' : Nat × Hash) : at2 (put2 s.commitMap k.1 k.2 true) k'.1 k'.2 =
      if votes k' = 0 then none else some (decide (faultNum < bump received k k')) := by
    rw [at2_write]
    split
    next same => simp [same, counted, bump_self, enough]
    next other =>
      rw [bump_other other]
      exact entries.commits k'
  have new : (at2 (put2 s.commitMap k.1 k.2 true) k.1 k.2).getD false = true := by
    rw [at2_write, if_pos rfl]
    rfl
  simp only [ClientVotes.commit, old]
  rw [ClientVotes.committed, new]
  by_cases before : faultNum < received k
  · simp only [before, decide_true, ne_eq, not_true_eq_false, if_false]
    refine ⟨entries.votes,marked,?_⟩
    intro k'
    by_cases same : k' = k
    · subst same
      rw [bump_self, if_pos enough]
      exact (entries.sends k').trans (if_pos before)
    · rw [bump_other same]
      exact entries.sends k'
  · simp only [before, decide_false, ne_eq, Bool.false_eq_true, not_false_eq_true, if_true]
    refine ⟨entries.votes,marked,?_⟩
    intro k'
    have earlier : s.sent.countP (fun entry => entry.1 = k') = if faultNum < received k' then 1 else 0 :=
      entries.sends k'
    rw [ClientVotes.sends, List.countP_append, earlier]
    by_cases same : k' = k
    · subst same
      simp [bump_self, before, enough]
    · simp [bump_other same, Ne.symm same]

theorem Entries.handleVote (entries : Entries faultNum received received s) (ack : CommitAck)
    (alone : ∀ k', 0 < received k' → k'.1 = ack.height → k' = ack.key p) (fits : received (ack.key p) + 1 < 2^64) :
    Entries faultNum (bump received (ack.key p)) (bump received (ack.key p)) (s.handleVote p faultNum ack) := by
  have added := entries.addVote (k := ack.key p) alone fits
  have count : (s.addVote (ack.key p)).count (ack.key p) = received (ack.key p) + 1 := by
    rw [ClientVotes.count, added.votes, bump_self, if_neg (by omega)]
    rfl
  rw [ClientVotes.handleVote, count]
  split
  next few =>
    have unmarked (k : Nat × Hash) : faultNum < bump received (ack.key p) k ↔ faultNum < received k := by
      by_cases same : k = ack.key p
      · subst same
        rw [bump_self]
        omega
      · rw [bump_other same]
    refine ⟨added.votes,?_,?_⟩
    · intro k
      simp only [added.commits k, unmarked]
    · intro k
      simp only [added.sends k, unmarked]
  next enough => exact added.commit (by simp [bump_self]) (by omega) _

theorem handleVotes_entries (readable : Readable p acks) (agreeing : Agreeing p acks)
    (fits : ∀ k, acknowledged p acks k < 2^64) :
    ∃ s, handleVotes p faultNum acks = some s ∧
      Entries faultNum (acknowledged p acks) (acknowledged p acks) s := by
  induction acks using List.reverseRecOn with
  | nil => exact ⟨.init,rfl,fun _ => rfl,fun _ => rfl,fun _ => rfl⟩
  | append_singleton acks ack ih =>
    have readable' : Readable p acks := fun a member => readable a (List.mem_append_left _ member)
    have shorter : Agreeing p acks :=
      fun a b first second => agreeing a b (List.mem_append_left _ first) (List.mem_append_left _ second)
    cases ack with
    | none =>
      rw [acknowledged_nil] at fits ⊢
      obtain ⟨s,ran,entries⟩ := ih readable' shorter fits
      exact ⟨s,by rw [handleVotes_snoc, ran]; rfl,entries⟩
    | some ack =>
      have now := acknowledged_snoc (p := p) acks ack
      obtain ⟨s,ran,entries⟩ := ih readable' shorter fun k => lt_of_le_of_lt (by rw [now, bump]; omega) (fits k)
      have own : 0 < acknowledged p (acks ++ [some ack]) (ack.key p) := by
        rw [now, bump_self]
        omega
      have step := entries.handleVote (p := p) ack ?_ ?_
      · refine ⟨s.handleVote p faultNum ack,?_,by rw [now]; exact step⟩
        rw [handleVotes_snoc, ran]
        exact if_pos (readable ack (List.mem_append_right _ List.mem_cons_self))
      · intro k' earlier height
        have kept : 0 < acknowledged p (acks ++ [some ack]) k' := by
          rw [now, bump]
          omega
        exact agreeing.keys kept own height
      · have := fits (ack.key p)
        rwa [now, bump_self] at this

theorem handleVotes_readable (ran : handleVotes p faultNum acks = some s) : Readable p acks := by
  induction acks using List.reverseRecOn generalizing s with
  | nil => exact fun _ member => absurd member List.not_mem_nil
  | append_singleton acks ack ih =>
    rw [handleVotes_snoc] at ran
    obtain ⟨s',earlier,received⟩ := Option.bind_eq_some_iff.mp ran
    intro a member
    rcases List.mem_append.mp member with old | new
    · exact ih earlier a old
    · obtain rfl := List.mem_singleton.mp new
      rw [ClientVotes.receive] at received
      split at received
      next copied => exact copied
      next => contradiction

/-! ## A row has one hash -/

/-- Whatever arrives, a height has at most one hash, with a count that fits. -/
structure SingleRows (s : ClientVotes) : Prop where
  single : ∀ h a b x y, at2 s.voteMap h a = some x → at2 s.voteMap h b = some y → a = b
  fits : ∀ h a x, at2 s.voteMap h a = some x → x < 2^64

theorem SingleRows.addVote (rows : SingleRows s) (k : Nat × Hash) : SingleRows (s.addVote k) := by
  rw [ClientVotes.addVote]
  split
  next =>
    constructor
    · intro h a b x y first second
      rw [at2_insert, lookup_insert] at first second
      split at first
      next height =>
        rw [if_pos height] at second
        split at first
        next hash =>
          split at second
          next hash' => exact hash.trans hash'.symm
          next => simp at second
        next => simp at first
      next elsewhere =>
        rw [if_neg elsewhere] at second
        exact rows.single h a b x y first second
    · intro h a x found
      rw [at2_insert, lookup_insert] at found
      split at found
      next =>
        split at found
        next =>
          obtain rfl := Option.some.inj found
          norm_num
        next => simp at found
      next => exact rows.fits h a x found
  next votes present =>
    have known {h : Nat} {a : Hash} {x : Nat} (found : at2 (put2 s.voteMap k.1 k.2 (wrap64 (votes + 1))) h a = some x) :
        (at2 s.voteMap h a).isSome ∧ x < 2^64 := by
      rw [at2_put2] at found
      split at found
      next here =>
        obtain rfl := Option.some.inj found
        exact ⟨by rw [here.1, here.2, present]; rfl,Nat.mod_lt _ (by norm_num)⟩
      next => exact ⟨by rw [found]; rfl,rows.fits h a x found⟩
    constructor
    · intro h a b x y first second
      obtain ⟨_,before⟩ := Option.isSome_iff_exists.mp (known first).1
      obtain ⟨_,before'⟩ := Option.isSome_iff_exists.mp (known second).1
      exact rows.single h a b _ _ before before'
    · exact fun h a x found => (known found).2

theorem SingleRows.receive (rows : SingleRows s) {ack : Option CommitAck} {s' : ClientVotes}
    (received : s.receive p faultNum ack = some s') : SingleRows s' := by
  have marks (s : ClientVotes) (k : Nat × Hash) (replacements : Nat) :
      (s.commit k replacements).voteMap = s.voteMap := by
    simp only [ClientVotes.commit]
    split <;> rfl
  cases ack with
  | none => exact Option.some.inj received ▸ rows
  | some ack =>
    rw [ClientVotes.receive] at received
    split at received
    next =>
      obtain rfl := Option.some.inj received
      have added := rows.addVote (ack.key p)
      rw [ClientVotes.handleVote]
      split
      next => exact added
      next =>
        constructor
        · rw [marks]
          exact added.single
        · rw [marks]
          exact added.fits
    next => contradiction

theorem handleVotes_rows (ran : handleVotes p faultNum acks = some s) : SingleRows s := by
  induction acks using List.reverseRecOn generalizing s with
  | nil =>
    obtain rfl := Option.some.inj ran
    constructor
    · intro h a b x y found
      simp [ClientVotes.init, at2] at found
    · intro h a x found
      simp [ClientVotes.init, at2] at found
  | append_singleton acks ack ih =>
    rw [handleVotes_snoc] at ran
    obtain ⟨s',earlier,received⟩ := Option.bind_eq_some_iff.mp ran
    exact (ih earlier).receive received

/-- The client has counted correctly at every point, without a panic, exactly when all block hashes can
be copied, no two acknowledgements are for different blocks at one height and no count overflows. -/
theorem handleVotes_tallied_iff (p : Platform) (faultNum : Nat) (acks : List (Option CommitAck)) :
    (∀ earlier, earlier <+: acks → ∃ s, handleVotes p faultNum earlier = some s ∧ Tallied p faultNum earlier s) ↔
      Readable p acks ∧ Agreeing p acks ∧ ∀ k, acknowledged p acks k < 2^64 := by
  constructor
  · intro tallied
    obtain ⟨s,ran,whole⟩ := tallied acks List.prefix_rfl
    have rows : SingleRows s := handleVotes_rows ran
    have found {k : Nat × Hash} (positive : 0 < acknowledged p acks k) :
        at2 s.voteMap k.1 k.2 = some (acknowledged p acks k) := by
      have count := whole.count k
      rw [ClientVotes.count] at count
      cases entry : at2 s.voteMap k.1 k.2 with
      | none =>
        rw [entry, Option.getD_none] at count
        omega
      | some votes =>
        rw [entry, Option.getD_some] at count
        rw [count]
    refine ⟨handleVotes_readable ran,?_,?_⟩
    · intro a b first second height
      have here := found (acknowledged_pos.mpr ⟨a,first,rfl⟩)
      have there := found (acknowledged_pos.mpr ⟨b,second,rfl⟩)
      have same : (b.key p).1 = a.height := height.symm
      rw [same] at there
      exact rows.single _ _ _ _ _ here there
    · intro k
      by_cases positive : 0 < acknowledged p acks k
      · exact rows.fits _ _ _ (found positive)
      · omega
  · rintro ⟨readable,agreeing,fits⟩ earlier ⟨later,rfl⟩
    have shorter : Agreeing p earlier :=
      fun a b first second => agreeing a b (List.mem_append_left _ first) (List.mem_append_left _ second)
    have fewer (k : Nat × Hash) : acknowledged p earlier k < 2^64 := by
      have total := fits k
      rw [acknowledged, List.countP_append] at total
      rw [acknowledged]
      omega
    obtain ⟨s,ran,entries⟩ : ∃ s, handleVotes p faultNum earlier = some s ∧
        Entries faultNum (acknowledged p earlier) (acknowledged p earlier) s :=
      handleVotes_entries (fun a member => readable a (List.mem_append_left _ member)) shorter fewer
    refine ⟨s,ran,?_,?_,entries.sends⟩
    · intro k
      rw [ClientVotes.count, entries.votes]
      split <;> simp [*]
    · intro k
      rw [ClientVotes.committed, entries.commits]
      split
      next none => simp [none]
      next => simp

def ackOfByte (b : UInt8) : CommitAck := ⟨some ⟨some ⟨[],[],5,[]⟩,some ⟨[[7]],[[7]]⟩,List.replicate 32 b⟩⟩

/-- Two replicas acknowledge different blocks at one height: the count and the mark of the first are
lost, and its next acknowledgement has its commands replaced once more. -/
theorem conflicting_acks_forget :
    let k := (ackOfByte 1).key transparent
    let after (acks : List CommitAck) := handleVotes transparent 0 (acks.map some)
    Readable transparent [some (ackOfByte 1),some (ackOfByte 2)] ∧
    (after [ackOfByte 1]).map (ClientVotes.committed · k) = some true ∧
    (after [ackOfByte 1,ackOfByte 2]).map (ClientVotes.count · k) = some 0 ∧
    acknowledged transparent [some (ackOfByte 1),some (ackOfByte 2)] k = 1 ∧
    (after [ackOfByte 1,ackOfByte 2]).map (ClientVotes.committed · k) = some false ∧
    (after [ackOfByte 1,ackOfByte 2,ackOfByte 1]).map (ClientVotes.sends · k) = some 2 := by
  refine ⟨?_,by decide +kernel,by decide +kernel,by decide +kernel,by decide +kernel,by decide +kernel⟩
  intro a member
  rcases List.mem_pair.mp member with same | same <;> obtain rfl := Option.some.inj same <;> decide

end Acks

end ReputationSMR
