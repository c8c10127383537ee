import Mathlib.Data.List.Basic
import Mathlib.Data.List.Perm.Basic
import Mathlib.Algebra.BigOperators.Group.List.Basic
import Mathlib.Tactic.Common

/-! A byte stream without delimiters, read in chunks of the transport's choosing, each
chunk decoded by itself. The reader gets back the messages that were written exactly
when every chunk is the encoding of one message. -/
namespace Framing

variable {μ β : Type}

structure Codec (μ β : Type) where
  marshal : μ → List β
  unmarshal : List β → Option μ

namespace Codec

def written (c : Codec μ β) (msgs : List μ) : List β := (msgs.map c.marshal).flatten

def RoundTrips (c : Codec μ β) : Prop := ∀ m, c.unmarshal (c.marshal m) = some m

/-- Decoding undoes encoding, refuses input that ends inside an encoding, and yields a
message from no string that is shorter than its encoding. The laws are asked of the
messages of interest only. -/
structure Lawful (c : Codec μ β) (kind : μ → Prop) : Prop where
  roundtrip : ∀ m, kind m → c.unmarshal (c.marshal m) = some m
  truncated : ∀ whole m start missing, (∀ w ∈ whole, kind w) → kind m →
    c.marshal m = start ++ missing → start ≠ [] → missing ≠ [] →
    c.unmarshal (c.written whole ++ start) = none
  shortest : ∀ m input, kind m → c.unmarshal input = some m → (c.marshal m).length ≤ input.length

/-- Chunks decoded one by one; those that fail are dropped. -/
def decodeAll (c : Codec μ β) (chunks : List (List β)) : List μ := chunks.filterMap c.unmarshal

variable {c : Codec μ β} {kind : μ → Prop} {msgs : List μ} {chunks : List (List β)}

@[simp] theorem written_nil (c : Codec μ β) : c.written [] = [] := rfl

@[simp] theorem written_cons (c : Codec μ β) (m : μ) (msgs : List μ) :
    c.written (m :: msgs) = c.marshal m ++ c.written msgs := rfl

theorem front_of_written (c : Codec μ β) (msgs : List μ) (front rest : List β)
    (stream : front ++ rest = c.written msgs) :
    (∃ whole later, msgs = whole ++ later ∧ front = c.written whole ∧ rest = c.written later) ∨
    ∃ whole m later start missing, msgs = whole ++ m :: later ∧ c.marshal m = start ++ missing ∧
      start ≠ [] ∧ missing ≠ [] ∧ front = c.written whole ++ start := by
  induction msgs generalizing front with
  | nil =>
    obtain ⟨rfl,rfl⟩ := List.append_eq_nil_iff.mp stream
    exact Or.inl ⟨[],[],rfl,rfl,rfl⟩
  | cons m msgs ih =>
    rw [written_cons] at stream
    rcases List.append_eq_append_iff.mp stream with ⟨missing,cut,left⟩ | ⟨after,beyond,left⟩
    · -- the front ends within the first message
      by_cases started : front = []
      · subst started
        exact Or.inl ⟨[],m :: msgs,rfl,rfl,by simpa using stream⟩
      · by_cases complete : missing = []
        · subst complete
          refine Or.inl ⟨[m],msgs,rfl,?_,by simpa using left⟩
          simpa using cut.symm
        · exact Or.inr ⟨[],m,msgs,front,missing,rfl,cut,started,complete,rfl⟩
    · rcases ih after left.symm with ⟨whole,later,split,same,tail⟩ | ⟨whole,k,later,start,missing,split,rest⟩
      · exact Or.inl ⟨m :: whole,later,by rw [split]; rfl,by rw [beyond, same]; rfl,tail⟩
      · obtain ⟨cut,started,open_,same⟩ := rest
        refine Or.inr ⟨m :: whole,k,later,start,missing,by rw [split]; rfl,cut,started,open_,?_⟩
        rw [beyond, same, written_cons, List.append_assoc]

/-- If every chunk decodes, chunks end between messages, so there are no more chunks than
messages, and with as many each chunk is one message. -/
theorem aligned (lawful : c.Lawful kind) (chunks : List (List β)) (msgs : List μ)
    (kinds : ∀ m ∈ msgs, kind m) (stream : chunks.flatten = c.written msgs)
    (nonempty : ∀ chunk ∈ chunks, chunk ≠ []) (decoded : ∀ chunk ∈ chunks, c.unmarshal chunk ≠ none) :
    chunks.length ≤ msgs.length ∧ (chunks.length = msgs.length → chunks = msgs.map c.marshal) := by
  induction chunks generalizing msgs with
  | nil => exact ⟨Nat.zero_le _,fun same => by rw [List.length_eq_zero_iff.mp same.symm]; rfl⟩
  | cons chunk rest ih =>
    rw [List.flatten_cons] at stream
    have first := nonempty chunk List.mem_cons_self
    rcases front_of_written c msgs chunk rest.flatten stream with
      ⟨whole,later,rfl,same,tail⟩ | ⟨whole,m,later,start,missing,rfl,cut,started,open_,same⟩
    · have some_ : whole ≠ [] := by
        intro empty
        rw [empty, written_nil] at same
        exact first same
      obtain ⟨few,exact_⟩ := ih later (fun m member => kinds m (List.mem_append_right _ member)) tail
        (fun k member => nonempty k (List.mem_cons_of_mem _ member))
        (fun k member => decoded k (List.mem_cons_of_mem _ member))
      have positive := List.length_pos_iff.mpr some_
      simp only [List.length_cons, List.length_append]
      refine ⟨by omega,fun equal => ?_⟩
      obtain ⟨m,rfl⟩ := List.length_eq_one_iff.mp (show whole.length = 1 by omega)
      rw [exact_ (by omega), same]
      simp
    · exfalso
      apply decoded chunk List.mem_cons_self
      rw [same]
      exact lawful.truncated whole m start missing
        (fun w member => kinds w (List.mem_append_left _ member)) (kinds m (by simp)) cut started open_

/-- Every chunk that is dropped costs the reader at least one byte of the stream. -/
theorem decodeAll_length (lawful : c.Lawful kind) (order : List (List β)) (msgs : List μ)
    (kinds : ∀ m ∈ msgs, kind m) (nonempty : ∀ chunk ∈ order, chunk ≠ [])
    (decoded : c.decodeAll order = msgs) :
    (c.written msgs).length + order.countP (fun chunk => (c.unmarshal chunk).isNone) ≤
      order.flatten.length := by
  induction order generalizing msgs with
  | nil =>
    subst decoded
    simp [decodeAll]
  | cons chunk rest ih =>
    have first := List.length_pos_iff.mpr (nonempty chunk List.mem_cons_self)
    have others := fun k member => nonempty k (List.mem_cons_of_mem chunk member)
    simp only [decodeAll, List.filterMap_cons] at decoded
    simp only [List.countP_cons, List.flatten_cons, List.length_append]
    cases outcome : c.unmarshal chunk with
    | none =>
      simp only [outcome] at decoded
      have tail := ih msgs kinds others decoded
      simp only [Option.isNone_none, if_true]
      omega
    | some m =>
      simp only [outcome] at decoded
      subst decoded
      have tail := ih _ (fun k member => kinds k (List.mem_cons_of_mem m member)) others rfl
      have fits := lawful.shortest m chunk (kinds m List.mem_cons_self) outcome
      simp only [written_cons, List.length_append, Option.isNone_some, Bool.false_eq_true, if_false]
      omega

theorem decodeAll_map_marshal (lawful : c.Lawful kind) (kinds : ∀ m ∈ msgs, kind m) :
    c.decodeAll (msgs.map c.marshal) = msgs := by
  induction msgs with
  | nil => rfl
  | cons m msgs ih =>
    have tail := ih fun k member => kinds k (List.mem_cons_of_mem m member)
    simp only [decodeAll, List.map_cons, List.filterMap_cons, lawful.roundtrip m (kinds m List.mem_cons_self)]
    simpa [decodeAll] using tail

/-- The messages come back in order exactly when each chunk is one whole message and the
chunks are decoded in the order in which they were read. -/
theorem decodeAll_eq_iff (lawful : c.Lawful kind) {order : List (List β)}
    (kinds : ∀ m ∈ msgs, kind m) (stream : chunks.flatten = c.written msgs)
    (nonempty : ∀ chunk ∈ chunks, chunk ≠ []) (scheduled : order.Perm chunks) :
    c.decodeAll order = msgs ↔ chunks = msgs.map c.marshal ∧ order = chunks := by
  constructor
  · intro decoded
    have filled : ∀ chunk ∈ order, chunk ≠ [] := fun k member => nonempty k (scheduled.mem_iff.mp member)
    have bytes : order.flatten.length = (c.written msgs).length := by
      rw [← stream]
      exact scheduled.flatten.length_eq
    have noneLost := decodeAll_length lawful order msgs kinds filled decoded
    have decodes : ∀ chunk ∈ order, c.unmarshal chunk ≠ none := by
      intro chunk member failed
      have lost : 0 < order.countP (fun chunk => (c.unmarshal chunk).isNone) :=
        List.countP_pos_iff.mpr ⟨chunk,member,by rw [failed]; rfl⟩
      omega
    have count : order.length = msgs.length := by
      rw [← decoded, decodeAll]
      exact (List.filterMap_length_eq_length.mpr fun chunk member =>
        Option.isSome_iff_ne_none.mpr (decodes chunk member)).symm
    have whole : chunks = msgs.map c.marshal :=
      (aligned lawful chunks msgs kinds stream nonempty
        fun k member => decodes k (scheduled.mem_iff.mpr member)).2 (scheduled.length_eq ▸ count)
    refine ⟨whole,?_⟩
    have each : ∀ chunk ∈ order, ∃ m, kind m ∧ chunk = c.marshal m := by
      intro chunk member
      have source := scheduled.mem_iff.mp member
      rw [whole] at source
      obtain ⟨m,sent,rfl⟩ := List.mem_map.mp source
      exact ⟨m,kinds m sent,rfl⟩
    have back (order : List (List β)) (each : ∀ chunk ∈ order, ∃ m, kind m ∧ chunk = c.marshal m) :
        (c.decodeAll order).map c.marshal = order := by
      induction order with
      | nil => rfl
      | cons chunk rest ih =>
        obtain ⟨m,known,rfl⟩ := each chunk List.mem_cons_self
        have tail := ih fun k member => each k (List.mem_cons_of_mem _ member)
        simp only [decodeAll, List.filterMap_cons, lawful.roundtrip m known, List.map_cons]
        exact congrArg _ tail
    rw [whole, ← decoded]
    exact (back order each).symm
  · rintro ⟨whole,rfl⟩
    rw [whole]
    exact decodeAll_map_marshal lawful kinds

end Codec

end Framing
