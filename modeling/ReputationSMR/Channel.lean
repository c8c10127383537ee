import Mathlib.Algebra.BigOperators.Group.Finset.Basic
import Mathlib.Algebra.Order.Group.Multiset
import Mathlib.Tactic.Abel

/-! Bounded channels. A goroutine that is about to send waits until the buffer has room; several of
them wait side by side and get in in any order, while the buffer itself is a queue. -/
namespace Bounded

@[ext] structure Channel (α : Type) where
  buffer : List α
  waiting : List α

namespace Channel

variable {α : Type}

def empty : Channel α := ⟨[],[]⟩

/-- A goroutine is about to send. -/
def send (ch : Channel α) (a : α) : Channel α := { ch with waiting := ch.waiting ++ [a] }

/-- The value goes into the buffer. -/
def put (ch : Channel α) (a : α) : Channel α := { ch with buffer := ch.buffer ++ [a] }

/-- The send of a waiting goroutine goes through. -/
def enter (ch : Channel α) (k : Nat) : Option (Channel α) :=
  ch.waiting[k]?.map fun a => ⟨ch.buffer ++ [a],ch.waiting.eraseIdx k⟩

def receive (ch : Channel α) : Option (α × Channel α) :=
  match ch.buffer with
  | [] => none
  | a :: rest => some (a,{ ch with buffer := rest })

/-- What is in the buffer or about to be sent. -/
def contents (ch : Channel α) : Multiset α := Multiset.ofList ch.buffer + Multiset.ofList ch.waiting

@[simp] theorem contents_empty : (empty : Channel α).contents = 0 := rfl

theorem contents_send (ch : Channel α) (a : α) : (ch.send a).contents = ch.contents + {a} := by
  rw [contents, contents, send, ← Multiset.coe_add, Multiset.coe_singleton, add_assoc]

theorem contents_put (ch : Channel α) (a : α) : (ch.put a).contents = ch.contents + {a} := by
  rw [contents, contents, put, ← Multiset.coe_add, Multiset.coe_singleton]
  abel

theorem contents_enter {ch ch' : Channel α} {k : Nat} (entered : ch.enter k = some ch') :
    ch'.contents = ch.contents := by
  obtain ⟨a,found,rfl⟩ := Option.map_eq_some_iff.mp entered
  obtain ⟨inside,rfl⟩ := List.getElem?_eq_some_iff.mp found
  have moved : {ch.waiting[k]} + Multiset.ofList (ch.waiting.eraseIdx k) = ch.waiting := by
    rw [Multiset.singleton_add, Multiset.cons_coe]
    exact Multiset.coe_eq_coe.mpr (List.getElem_cons_eraseIdx_perm inside)
  rw [contents, contents, ← moved, ← Multiset.coe_add, Multiset.coe_singleton, add_assoc]

theorem enter_isSome {ch : Channel α} {k : Nat} (inside : k < ch.waiting.length) : ∃ ch', ch.enter k = some ch' := by
  rw [enter, List.getElem?_eq_getElem inside]
  exact ⟨_,rfl⟩

theorem receive_isSome {ch : Channel α} (some : ch.buffer ≠ []) : ∃ a ch', ch.receive = Option.some (a,ch') := by
  rw [receive]
  split
  next empty => contradiction
  next a rest _ => exact ⟨a,_,rfl⟩

theorem contents_receive {ch ch' : Channel α} {a : α} (received : ch.receive = some (a,ch')) :
    ch'.contents + {a} = ch.contents := by
  rw [receive] at received
  split at received
  next => contradiction
  next first rest same =>
    obtain ⟨rfl,rfl⟩ := Prod.mk.inj (Option.some.inj received)
    rw [contents, contents, same, ← Multiset.cons_coe, ← Multiset.singleton_add]
    abel

theorem receive_buffer {ch ch' : Channel α} {a : α} (received : ch.receive = some (a,ch')) :
    ch.buffer.head? = some a := by
  rw [receive] at received
  split at received
  next => contradiction
  next first rest same =>
    obtain ⟨rfl,_⟩ := Prod.mk.inj (Option.some.inj received)
    rw [same, List.head?_cons]

end Channel

theorem sum_update_add {ι M : Type} [Fintype ι] [DecidableEq ι] [AddCommMonoid M] {β : ι → Type}
    (size : ∀ i, β i → M) (f : ∀ i, β i) (i : ι) (x : β i) :
    ∑ k, size k (Function.update f i x k) + size i (f i) = ∑ k, size k (f k) + size i x := by
  have others : ∑ k ∈ Finset.univ.erase i, size k (Function.update f i x k) =
      ∑ k ∈ Finset.univ.erase i, size k (f k) := by
    refine Finset.sum_congr rfl fun k member => ?_
    rw [Function.update_of_ne (Finset.ne_of_mem_erase member)]
  rw [← Finset.add_sum_erase _ _ (Finset.mem_univ i), ← Finset.add_sum_erase _ (fun k => size k (f k)) (Finset.mem_univ i),
    others, Function.update_self]
  abel

end Bounded
