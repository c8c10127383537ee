import Mathlib.Tactic.Abel
import ReputationSMR.System
import ReputationSMR.MessageCodec

/-! The cluster with its byte streams. A node writes the encoding of a message to a stream for each
peer; a handler at the other end reads some bytes and starts a goroutine with them; the goroutine
decodes what it was given and puts the message into the channel that `protocol` takes it from. The
cluster of messages abstracts from all of this, and it is right to do so as long as every read returns
what one write has written and the codec gives back what was encoded. -/
namespace ReputationSMR

open Wire FiniteMap Framing

def protocolMsgBuffer : Nat := 100

def maxMsgSize : Nat := 1000 * 1024 * 1024

/-! ## Streams -/

/-- The bytes of one `Write` that have not been read. -/
structure Segment where
  source : Nat
  dest : Nat
  bytes : Bytes
  deriving DecidableEq

def Segment.on (i j : Nat) (seg : Segment) : Bool := seg.source = i ∧ seg.dest = j

def unread (i j : Nat) (wire : List Segment) : Bytes := (wire.filter (Segment.on i j)).flatMap Segment.bytes

/-- `reader.Read`: the first bytes of a stream, whatever segments they come from, and what is left. -/
def readBytes (i j : Nat) : Nat → List Segment → Bytes × List Segment
  | _, [] => ([],[])
  | k, seg :: wire =>
    if seg.on i j then
      if k < seg.bytes.length then (seg.bytes.take k,{ seg with bytes := seg.bytes.drop k } :: wire)
      else
        let (rest,wire) := readBytes i j (k - seg.bytes.length) wire
        (seg.bytes ++ rest,wire)
    else
      let (read,wire) := readBytes i j k wire
      (read,seg :: wire)

theorem readBytes_zero (i j : Nat) (wire : List Segment) (full : ∀ seg ∈ wire, seg.bytes ≠ []) :
    readBytes i j 0 wire = ([],wire) := by
  induction wire with
  | nil => rfl
  | cons seg wire ih =>
    have rest := ih fun x member => full x (List.mem_cons_of_mem _ member)
    rw [readBytes]
    split
    next => rw [if_pos (List.length_pos_iff.mpr (full seg List.mem_cons_self)), List.take_zero, List.drop_zero]
    next => rw [rest]

theorem readBytes_whole {i j : Nat} {wire : List Segment} {seg : Segment} (full : ∀ seg ∈ wire, seg.bytes ≠ [])
    (first : wire.find? (Segment.on i j) = some seg) :
    readBytes i j seg.bytes.length wire = (seg.bytes,wire.eraseP (Segment.on i j)) := by
  induction wire with
  | nil => simp at first
  | cons x wire ih =>
    have later := fun y member => full y (List.mem_cons_of_mem x member)
    rw [readBytes]
    by_cases here : x.on i j
    · obtain rfl : x = seg := by simpa [List.find?_cons,here] using first
      rw [if_pos here, if_neg (Nat.lt_irrefl _), Nat.sub_self, readBytes_zero i j wire later,
        List.eraseP_cons_of_pos here]
      simp only [List.append_nil]
    · have first : wire.find? (Segment.on i j) = some seg := by simpa [List.find?_cons,here] using first
      rw [if_neg here, ih later first, List.eraseP_cons_of_neg here]

/-! ## The machine -/

/-- A goroutine of `react` with its bytes. -/
structure Chunk where
  dest : Nat
  honest : Bool
  bytes : Bytes

/-- The nodes, the streams between them, the goroutines of `react` and the channels `msgChannel`, in
one list each; `log` and `signed` are the history as in the cluster of messages. -/
structure ByteSystem where
  nodes : Nat → Node
  wire : List Segment
  chunks : List Chunk
  msgChannel : List (Nat × SyncHSMsg)
  log : List Completed
  signed : List (Nat × Bytes)

/-- The nodes `lost` are those to which the streams fail. -/
inductive ByteEvent where
  | connect (i : Nat)
  | command (i : Nat) (cmd : Bytes)
  | work (i index : Nat) (order lost : List Nat)
  | callback (i : Nat)
  | read (i j k : Nat)
  | garble (j : Nat) (bytes : Bytes)
  | react (index : Nat)
  | dispatch (i : Nat)

/-- What `Broadcast` and `EquivocatingBroadcast` write. A write of no bytes leaves nothing to read. -/
def Cluster.segments (c : Cluster) (codec : MsgCodec) (i : Nat) (lost : List Nat) (sends : List Outgoing) : List Segment :=
  (sends.flatMap fun o => ((c.honestNodes.filter fun j => j ∈ (c.config i).pMap).filter fun j => j ∉ lost).map fun j =>
    ⟨i,j,codec.marshal (o.to j)⟩).filter fun seg => seg.bytes ≠ []

namespace ByteSystem

variable (c : Cluster) (p : Platform) (codec : MsgCodec) (b : ByteSystem)

def act (i : Nat) (lost : List Nat) (e : NodeEvent) : Option ByteSystem :=
  ((b.nodes i).step p (c.config i) e).map fun (node,sends) =>
    { b with
      nodes := Function.update b.nodes i node
      wire := b.wire ++ c.segments codec i lost sends
      signed := b.signed ++ (sends.flatMap Outgoing.messages).flatMap fun m =>
        m.signedData.map fun data => (i,data) }

def received (i : Nat) : List (Nat × SyncHSMsg) := b.msgChannel.filter fun entry => entry.1 = i

/-- The state of the cluster of messages as far as signatures are concerned. -/
def signers : System := ⟨b.nodes,[],b.log,b.signed⟩

/-- Byzantine nodes may send any bytes in which there is no forged signature. -/
def admits (chunk : Chunk) : Prop :=
  chunk.honest = true ∨ ((ReputationSMR.react codec chunk.bytes).all fun m =>
    decide (c.byzantine.Nonempty ∧ c.honest chunk.dest ∧ Unforged c p b.signers m)) = true

def enabled : ByteEvent → Prop
  | .connect i | .command i _ => c.honest i
  | .work i index order _ => c.honest i ∧ (b.nodes i).enabled (c.config i) (.work index order)
  | .callback i => c.honest i ∧ (b.nodes i).enabled (c.config i) .callback
  | .read i j k => 0 < k ∧ k ≤ maxMsgSize ∧ k ≤ (unread i j b.wire).length
  | .garble j _ => c.byzantine.Nonempty ∧ c.honest j
  | .react index => ∃ chunk ∈ b.chunks[index]?, (b.received chunk.dest).length < protocolMsgBuffer ∧ b.admits c p codec chunk
  | .dispatch i => b.received i ≠ []

instance (chunk : Chunk) : Decidable (b.admits c p codec chunk) := inferInstanceAs (Decidable (_ ∨ _))

instance (e : ByteEvent) : Decidable (b.enabled c p codec e) :=
  match e with
  | .connect i | .command i _ => inferInstanceAs (Decidable (c.honest i))
  | .work _ _ _ _ | .callback _ | .read _ _ _ | .garble _ _ => inferInstanceAs (Decidable (_ ∧ _))
  | .react index => inferInstanceAs (Decidable (∃ chunk ∈ b.chunks[index]?, _))
  | .dispatch i => inferInstanceAs (Decidable (b.received i ≠ []))

def step : ByteEvent → Option ByteSystem
  | .connect i => b.act c p codec i [] .connect
  | .command i cmd => b.act c p codec i [] (.command cmd)
  | .work i index order lost => b.act c p codec i lost (.work index order)
  | .callback i => (b.act c p codec i [] .callback).map fun t =>
      { t with log := t.log ++ [⟨i,(b.nodes i).state.view,(t.nodes i).state⟩] }
  | .read i j k =>
    let (bytes,wire) := readBytes i j k b.wire
    some { b with wire := wire, chunks := b.chunks ++ [⟨j,true,bytes⟩] }
  | .garble j bytes => some { b with chunks := b.chunks ++ [⟨j,false,bytes⟩] }
  | .react index => b.chunks[index]?.map fun chunk =>
      { b with
        chunks := b.chunks.eraseIdx index
        msgChannel := b.msgChannel ++ ((ReputationSMR.react codec chunk.bytes).map fun m => (chunk.dest,m)).toList }
  | .dispatch i =>
    match b.msgChannel.find? fun entry => entry.1 = i with
    | none => none
    | some entry =>
      { b with msgChannel := b.msgChannel.eraseP fun entry => entry.1 = i }.act c p codec i [] (.receive entry.2)

def start : ByteSystem := ⟨(System.start c).nodes,[],[],[],[],[]⟩

end ByteSystem

def byteMachine (c : Cluster) (p : Platform) (codec : MsgCodec) : Guarded.Machine ByteSystem ByteEvent :=
  ⟨fun b e => b.enabled c p codec e,fun b e => b.step c p codec e⟩

instance (c : Cluster) (p : Platform) (codec : MsgCodec) (b : ByteSystem) (e : ByteEvent) :
    Decidable ((byteMachine c p codec).enabled b e) :=
  inferInstanceAs (Decidable (b.enabled c p codec e))

/-- A read returns the bytes of one write. -/
def WholeReads (b : ByteSystem) : ByteEvent → Prop
  | .read i j k => (b.wire.find? (Segment.on i j)).map (fun seg => seg.bytes.length) = some k
  | _ => True

instance (b : ByteSystem) (e : ByteEvent) : Decidable (WholeReads b e) :=
  match e with
  | .read _ _ _ => inferInstanceAs (Decidable (_ = _))
  | .connect _ | .command _ _ | .work _ _ _ _ | .callback _ | .garble _ _ | .react _ | .dispatch _ => isTrue trivial

/-! ## The simulation -/

theorem cons_eraseP_perm {α : Type} {P : α → Bool} {l : List α} {x : α} (found : l.find? P = some x) :
    (x :: l.eraseP P).Perm l := by
  induction l with
  | nil => simp at found
  | cons y l ih =>
    by_cases here : P y
    · obtain rfl : y = x := by simpa [List.find?_cons,here] using found
      rw [List.eraseP_cons_of_pos here]
    · have found : l.find? P = some x := by simpa [List.find?_cons,here] using found
      rw [List.eraseP_cons_of_neg here]
      exact (List.Perm.swap y x _).trans ((ih found).cons y)

theorem cons_eraseIdx_perm {α : Type} {l : List α} {index : Nat} {x : α} (found : l[index]? = some x) :
    (x :: l.eraseIdx index).Perm l := by
  obtain ⟨inside,rfl⟩ := List.getElem?_eq_some_iff.mp found
  exact List.getElem_cons_eraseIdx_perm inside

theorem coe_filterMap_cons {α β : Type} (f : α → Option β) (x : α) (l : List α) :
    Multiset.ofList ((x :: l).filterMap f) = Multiset.ofList (f x).toList + Multiset.ofList (l.filterMap f) := by
  cases made : f x <;> simp [made]

/-- What will be made of the bytes when they are decoded. -/
def Segment.decoded (codec : MsgCodec) (seg : Segment) : Option (Nat × SyncHSMsg) :=
  (react codec seg.bytes).map fun m => (seg.dest,m)

def Chunk.decoded (codec : MsgCodec) (chunk : Chunk) : Option (Nat × SyncHSMsg) :=
  if chunk.honest then (react codec chunk.bytes).map fun m => (chunk.dest,m) else none

/-- The messages of honest nodes on their way, wherever they are. -/
def ByteSystem.inFlight (codec : MsgCodec) (b : ByteSystem) : Multiset (Nat × SyncHSMsg) :=
  b.wire.filterMap (Segment.decoded codec) + b.chunks.filterMap (Chunk.decoded codec) + b.msgChannel

/-- The nodes are the same, and what is on its way in bytes is on its way as messages. -/
structure Abstracts (codec : MsgCodec) (b : ByteSystem) (s : System) : Prop where
  nodes : s.nodes = b.nodes
  log : s.log = b.log
  signed : s.signed = b.signed
  net : b.inFlight codec ≤ s.net.map fun x => (x.dest,x.msg)
  full : ∀ seg ∈ b.wire, seg.bytes ≠ []

section Simulation

variable {c : Cluster} {p : Platform} {codec : MsgCodec} {b b' : ByteSystem} {s : System}

theorem marshal_decoded (back : codec.RoundTrips) (i j : Nat) (m : SyncHSMsg) :
    (Segment.mk i j (codec.marshal m)).decoded codec = some (j,m) := by
  rw [Segment.decoded, react, back m]
  rfl

theorem segments_decoded (back : codec.RoundTrips) (i view : Nat) (lost : List Nat) (sends : List Outgoing) :
    ((c.segments codec i lost sends).filterMap (Segment.decoded codec)).Sublist
      ((c.packets i view sends).map fun x => (x.dest,x.msg)) := by
  have all : ((sends.flatMap fun o => ((c.honestNodes.filter fun j => j ∈ (c.config i).pMap).filter fun j => j ∉ lost).map
      fun j => (⟨i,j,codec.marshal (o.to j)⟩ : Segment)).filterMap (Segment.decoded codec)).Sublist
        ((c.packets i view sends).map fun x => (x.dest,x.msg)) := by
    induction sends with
    | nil => exact .slnil
    | cons o rest ih =>
      rw [List.flatMap_cons, List.filterMap_append, Cluster.packets, List.flatMap_cons, List.map_append]
      refine List.Sublist.append ?_ ih
      rw [List.filterMap_map, List.map_map]
      simp only [Function.comp_def, marshal_decoded back, List.filterMap_eq_map']
      exact List.filter_sublist.map _
  exact (List.filter_sublist.filterMap _).trans all

theorem Abstracts.act (back : codec.RoundTrips) (abstracts : Abstracts codec b s) {i : Nat} {lost : List Nat}
    {e : NodeEvent} (acted : b.act c p codec i lost e = some b') : ∃ t, s.act c p i e = some t ∧ Abstracts codec b' t := by
  obtain ⟨⟨node,sends⟩,stepped,rfl⟩ := Option.map_eq_some_iff.mp acted
  rw [← abstracts.nodes] at stepped
  refine ⟨_,System.act_eq stepped,?_,abstracts.log,?_,?_,?_⟩
  · exact congrArg (Function.update · i node) abstracts.nodes
  · exact congrArg (· ++ _) abstracts.signed
  · have more : b.inFlight codec + ((c.segments codec i lost sends).filterMap (Segment.decoded codec) : List _) ≤
        (s.net.map fun x => (x.dest,x.msg) : List _) +
          ((c.packets i (s.nodes i).state.view sends).map fun x => (x.dest,x.msg) : List _) :=
      add_le_add abstracts.net (segments_decoded back i _ lost sends).subperm
    simp only [ByteSystem.inFlight, System.moved, List.filterMap_append, List.map_append, ← Multiset.coe_add] at more ⊢
    refine le_trans (le_of_eq ?_) more
    abel
  · intro seg member
    rcases List.mem_append.mp member with old | new
    · exact abstracts.full seg old
    · simpa using (List.mem_filter.mp new).2

theorem follow_event {t : System} {e : SystemEvent} (enabled : s.enabled c p e) (stepped : s.step c p e = some t)
    (abstracts : Abstracts codec b' t) : ∃ later t, (systemMachine c p).Run s later t ∧ Abstracts codec b' t :=
  ⟨[] ++ [e],t,.snoc .nil enabled stepped,abstracts⟩

theorem Abstracts.read (abstracts : Abstracts codec b s) {i j k : Nat} (whole : WholeReads b (.read i j k))
    (stepped : b.step c p codec (.read i j k) = some b') : Abstracts codec b' s := by
  obtain ⟨seg,first,rfl⟩ := Option.map_eq_some_iff.mp whole
  have on : seg.source = i ∧ seg.dest = j := by simpa [Segment.on] using List.find?_some first
  simp only [ByteSystem.step, readBytes_whole abstracts.full first, Option.some.injEq] at stepped
  subst stepped
  refine ⟨abstracts.nodes,abstracts.log,abstracts.signed,?_,fun x member => abstracts.full x (List.mem_of_mem_eraseP member)⟩
  refine le_trans (le_of_eq ?_) abstracts.net
  have same : (Chunk.mk j true seg.bytes).decoded codec = seg.decoded codec := by
    rw [Chunk.decoded, Segment.decoded, on.2]
    rfl
  have moved : Multiset.ofList ((seg :: b.wire.eraseP (Segment.on i j)).filterMap (Segment.decoded codec)) =
      b.wire.filterMap (Segment.decoded codec) := Multiset.coe_eq_coe.mpr ((cons_eraseP_perm first).filterMap _)
  rw [coe_filterMap_cons] at moved
  rw [ByteSystem.inFlight, ByteSystem.inFlight, ← moved, List.filterMap_append, ← Multiset.coe_add, coe_filterMap_cons,
    same, List.filterMap_nil, Multiset.coe_nil, add_zero]
  abel

variable (codec) in
theorem ByteSystem.inFlight_react {index : Nat} {chunk : Chunk} (found : b.chunks[index]? = some chunk)
    (entries : List (Nat × SyncHSMsg)) :
    { b with chunks := b.chunks.eraseIdx index, msgChannel := b.msgChannel ++ entries : ByteSystem }.inFlight codec +
      Multiset.ofList (chunk.decoded codec).toList = b.inFlight codec + Multiset.ofList entries := by
  have moved : Multiset.ofList ((chunk :: b.chunks.eraseIdx index).filterMap (Chunk.decoded codec)) =
      b.chunks.filterMap (Chunk.decoded codec) := Multiset.coe_eq_coe.mpr ((cons_eraseIdx_perm found).filterMap _)
  rw [coe_filterMap_cons] at moved
  rw [ByteSystem.inFlight, ByteSystem.inFlight, ← moved, ← Multiset.coe_add]
  abel

theorem Abstracts.react (abstracts : Abstracts codec b s) {index : Nat} (enabled : b.enabled c p codec (.react index))
    (stepped : b.step c p codec (.react index) = some b') :
    ∃ later t, (systemMachine c p).Run s later t ∧ Abstracts codec b' t := by
  obtain ⟨chunk,found,_,admits⟩ := enabled
  rw [Option.mem_def] at found
  simp only [ByteSystem.step, found, Option.map_some, Option.some.injEq] at stepped
  subst stepped
  have balance := ByteSystem.inFlight_react codec found
    ((ReputationSMR.react codec chunk.bytes).map fun m => (chunk.dest,m)).toList
  by_cases honest : chunk.honest = true
  · rw [Chunk.decoded, if_pos honest] at balance
    refine ⟨[],s,.nil,abstracts.nodes,abstracts.log,abstracts.signed,?_,abstracts.full⟩
    exact (le_of_eq (add_right_cancel balance)).trans abstracts.net
  · rw [Chunk.decoded, if_neg honest, Option.toList_none, Multiset.coe_nil, add_zero] at balance
    cases decoded : ReputationSMR.react codec chunk.bytes with
    | none =>
      rw [decoded] at balance
      refine ⟨[],s,.nil,abstracts.nodes,abstracts.log,abstracts.signed,?_,abstracts.full⟩
      exact (le_of_eq (balance.trans (by simp))).trans abstracts.net
    | some m =>
      rw [decoded] at balance
      -- the bytes of a Byzantine node come into the cluster of messages when they are decoded
      have unforged := admits.resolve_left honest
      rw [decoded, Option.all_some, decide_eq_true_eq] at unforged
      obtain ⟨some,inside,known⟩ := unforged
      have known' : Unforged c p s m := fun entry member j honest verified => by
        rw [abstracts.signed]
        exact known entry member j honest verified
      refine follow_event (e := .inject chunk.dest m) ⟨some,inside,known'⟩ rfl
        ⟨abstracts.nodes,abstracts.log,abstracts.signed,?_,abstracts.full⟩
      refine (le_of_eq balance).trans ?_
      rw [List.map_append, ← Multiset.coe_add]
      exact add_le_add abstracts.net le_rfl

theorem Abstracts.dispatch (back : codec.RoundTrips) (abstracts : Abstracts codec b s) {i : Nat}
    (stepped : b.step c p codec (.dispatch i) = some b') :
    ∃ later t, (systemMachine c p).Run s later t ∧ Abstracts codec b' t := by
  simp only [ByteSystem.step] at stepped
  split at stepped
  next => contradiction
  next entry first =>
    obtain rfl : entry.1 = i := by simpa using List.find?_some first
    have moved : entry ::ₘ Multiset.ofList (b.msgChannel.eraseP fun other => other.1 = entry.1) = b.msgChannel :=
      Multiset.coe_eq_coe.mpr (cons_eraseP_perm first)
    have flying : entry ::ₘ
        { b with msgChannel := b.msgChannel.eraseP fun other => other.1 = entry.1 : ByteSystem }.inFlight codec =
          b.inFlight codec := by
      rw [ByteSystem.inFlight, ByteSystem.inFlight, ← moved, Multiset.add_cons]
    have net := abstracts.net
    rw [← flying] at net
    obtain ⟨x,sent,same⟩ := List.mem_map.mp (Multiset.mem_coe.mp (Multiset.mem_of_le net (Multiset.mem_cons_self _ _)))
    obtain ⟨k,found⟩ := List.mem_iff_getElem?.mp sent
    have dest : x.dest = entry.1 := congrArg Prod.fst same
    have msg : x.msg = entry.2 := congrArg Prod.snd same
    have rest : Abstracts codec { b with msgChannel := b.msgChannel.eraseP fun other => other.1 = entry.1 }
        { s with net := s.net.eraseIdx k } := by
      refine ⟨abstracts.nodes,abstracts.log,abstracts.signed,?_,abstracts.full⟩
      have others : (x.dest,x.msg) ::ₘ Multiset.ofList ((s.net.eraseIdx k).map fun x => (x.dest,x.msg)) =
          s.net.map fun x => (x.dest,x.msg) :=
        Multiset.coe_eq_coe.mpr ((cons_eraseIdx_perm found).map fun x : Packet => (x.dest,x.msg))
      rw [← others, same] at net
      exact (Multiset.cons_le_cons_iff _).mp net
    obtain ⟨t,acted,after⟩ := rest.act back stepped
    refine follow_event (e := .deliver k) (List.getElem?_eq_some_iff.mp found).1 ?_ after
    simp only [System.step, found, dest, msg]
    exact acted

theorem Abstracts.step (back : codec.RoundTrips) (abstracts : Abstracts codec b s) {e : ByteEvent}
    (enabled : b.enabled c p codec e) (whole : WholeReads b e) (stepped : b.step c p codec e = some b') :
    ∃ later t, (systemMachine c p).Run s later t ∧ Abstracts codec b' t := by
  cases e with
  | connect i =>
    obtain ⟨t,acted,after⟩ := abstracts.act back stepped
    exact follow_event (e := .connect i) enabled acted after
  | command i cmd =>
    obtain ⟨t,acted,after⟩ := abstracts.act back stepped
    exact follow_event (e := .command i cmd) enabled acted after
  | work i index order lost =>
    obtain ⟨t,acted,after⟩ := abstracts.act back stepped
    have enabled' : s.enabled c p (.work i index order) := by
      rw [System.enabled, abstracts.nodes]
      exact enabled
    exact follow_event enabled' acted after
  | callback i =>
    obtain ⟨u,acted,rfl⟩ := Option.map_eq_some_iff.mp stepped
    obtain ⟨t,acted',after⟩ := abstracts.act back acted
    have enabled' : s.enabled c p (.callback i) := by
      rw [System.enabled, abstracts.nodes]
      exact enabled
    refine follow_event enabled' (Option.map_eq_some_iff.mpr ⟨t,acted',rfl⟩)
      ⟨after.nodes,?_,after.signed,after.net,after.full⟩
    rw [after.log, after.nodes, abstracts.nodes]
  | read i j k => exact ⟨[],s,.nil,abstracts.read whole stepped⟩
  | garble j bytes =>
    obtain rfl := Option.some.inj stepped
    refine ⟨[],s,.nil,abstracts.nodes,abstracts.log,abstracts.signed,?_,abstracts.full⟩
    have net := abstracts.net
    simpa [ByteSystem.inFlight,Chunk.decoded] using net
  | react index => exact abstracts.react enabled stepped
  | dispatch i => exact abstracts.dispatch back stepped

/-- Every run of the cluster with streams, in which a read returns what one write has written, is a run
of the cluster of messages: in the same states the nodes do the same, whatever writes fail and however
the goroutines of `react` are scheduled. Any codec will do that decodes what it has encoded. -/
theorem streams_refine_messages (back : codec.RoundTrips) {trace : List ByteEvent}
    (run : ((byteMachine c p codec).restrict WholeReads).Run (.start c) trace b) :
    ∃ later s, (systemMachine c p).Run (System.start c) later s ∧
      s.nodes = b.nodes ∧ s.log = b.log ∧ s.signed = b.signed := by
  have initial : Abstracts codec (.start c) (System.start c) :=
    ⟨rfl,rfl,rfl,le_rfl,fun seg member => absurd member List.not_mem_nil⟩
  obtain ⟨later,s,matched,abstracts⟩ := run.simulate (N := systemMachine c p) (R := Abstracts codec) (by
    intro b e b' s abstracts admitted stepped
    exact abstracts.step back admitted.1 admitted.2 stepped) initial
  exact ⟨later,s,matched,abstracts.nodes,abstracts.log,abstracts.signed⟩

end Simulation

/-- The first proposal of two nodes, which has 166 bytes, on its way to the other node. -/
def proposalInBytes : List ByteEvent :=
  [.command 0 [1],.work 0 0 [] [],.work 0 0 [] [],.read 0 1 166,.react 0,.dispatch 1]

theorem proposal_arrives_in_bytes : ∃ later s,
    (systemMachine (Cluster.complete 2 1 false .plain ∅) transparent).Run
      (System.start (Cluster.complete 2 1 false .plain ∅)) later s ∧ (s.nodes 1).pending.length = 1 := by
  obtain ⟨b,run,arrived⟩ : ∃ b,
      ((byteMachine (Cluster.complete 2 1 false .plain ∅) transparent msgCodec).restrict WholeReads).Run
        (.start (Cluster.complete 2 1 false .plain ∅)) proposalInBytes b ∧ (b.nodes 1).pending.length = 1 := by
    apply Guarded.Machine.reaches
    decide +kernel
  obtain ⟨later,s,matched,nodes,_⟩ := streams_refine_messages (fun m => SyncHSMsg.schema.unmarshal_marshal m) run
  exact ⟨later,s,matched,nodes ▸ arrived⟩

end ReputationSMR
