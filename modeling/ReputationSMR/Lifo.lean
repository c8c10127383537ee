import Mathlib.Data.List.Basic
import Mathlib.Data.List.Induction
import Mathlib.Logic.Function.Basic

/-! Pools of several owners from which the newest elements are taken first. An element may arrive at
more than one owner, and an owner takes elements from its own pool only, a fixed number at each of
its turns; the others keep them. -/
namespace Lifo

variable {α : Type}

def newest (size : Nat) (l : List α) : List α := l.drop (l.length - size)

theorem newest_append {size : Nat} (below above : List α) (enough : size ≤ above.length) :
    newest size (below ++ above) = newest size above := by
  have length : (below ++ above).length - size = below.length + (above.length - size) := by
    rw [List.length_append]
    omega
  rw [newest, newest, length, List.drop_append, List.drop_of_length_le (Nat.le_add_right _ _), List.nil_append,
    Nat.add_sub_cancel_left]

inductive Event (α : Type) where
  | arrival (i : Nat) (a : α)
  | turn (i : Nat)
  deriving DecidableEq

/-- What has arrived at an owner before its latest turn and since, and what it has not taken. -/
structure Pool (α : Type) where
  early : List α
  recent : List α
  stack : List α

namespace Pool

def arrived (pool : Pool α) : List α := pool.early ++ pool.recent

def arrive (pool : Pool α) (a : α) : Pool α :=
  ⟨pool.early,pool.recent ++ [a],pool.stack ++ [a]⟩

def turn (size : Nat) (pool : Pool α) : Pool α :=
  ⟨pool.arrived,[],pool.stack.take (pool.stack.length - size)⟩

end Pool

/-- The pools of the owners, and what was taken at the turns so far. -/
structure Pools (α : Type) where
  pool : Nat → Pool α
  batches : List (Nat × List α)

namespace Pools

def start (initial : List α) : Pools α := ⟨fun _ => ⟨[],[],initial⟩,[]⟩

def step (size : Nat) (s : Pools α) : Event α → Pools α
  | .arrival i a => ⟨Function.update s.pool i ((s.pool i).arrive a),s.batches⟩
  | .turn i =>
    ⟨Function.update s.pool i ((s.pool i).turn size),s.batches ++ [(i,newest size (s.pool i).stack)]⟩

def run (size : Nat) (initial : List α) (log : List (Event α)) : Pools α := log.foldl (step size) (start initial)

theorem run_append (size : Nat) (initial : List α) (log later : List (Event α)) :
    run size initial (log ++ later) = later.foldl (step size) (run size initial log) := List.foldl_append

theorem pool_arrival (size : Nat) (s : Pools α) (i j : Nat) (a : α) :
    (s.step size (.arrival i a)).pool j = if j = i then (s.pool j).arrive a else s.pool j := by
  simp only [step, Function.update_apply]
  split
  next own => rw [own]
  next => rfl

theorem pool_turn (size : Nat) (s : Pools α) (i j : Nat) :
    (s.step size (.turn i)).pool j = if j = i then (s.pool j).turn size else s.pool j := by
  simp only [step, Function.update_apply]
  split
  next own => rw [own]
  next => rfl

def taken (i : Nat) (batches : List (Nat × List α)) : List α :=
  (batches.filter fun batch => batch.1 = i).flatMap Prod.snd

/-- No element outside a list was taken by two owners. -/
def Apart (initial : List α) (batches : List (Nat × List α)) : Prop :=
  batches.Pairwise fun a b => a.1 ≠ b.1 → ∀ x ∈ a.2, x ∉ initial → x ∉ b.2

instance [DecidableEq α] (initial : List α) (batches : List (Nat × List α)) : Decidable (Apart initial batches) :=
  inferInstanceAs (Decidable (List.Pairwise _ batches))

/-- At each turn of a run, what had arrived at another owner before its latest turn lies below
enough elements that arrived at the owner whose turn it is since its own latest turn. -/
def Covered (size : Nat) (initial : List α) (log : List (Event α)) : Prop :=
  ∀ past i, past ++ [.turn i] <+: log → ∀ j, j ≠ i → ∀ x ∈ ((run size initial past).pool j).early,
    x ∈ ((run size initial past).pool i).arrived →
      size ≤ ((run size initial past).pool i).recent.length ∧
        x ∉ newest size ((run size initial past).pool i).recent

/-! ## Along a run -/

/-- A pool holds what it held at first and what arrived, except what its owner has taken; what
arrived since the latest turn is on top; and everything taken had arrived by then. -/
structure Kept (initial : List α) (s : Pools α) : Prop where
  conserved : ∀ i, ((s.pool i).stack ++ taken i s.batches).Perm (initial ++ (s.pool i).arrived)
  top : ∀ i, (s.pool i).recent <:+ (s.pool i).stack
  source : ∀ batch ∈ s.batches, ∀ x ∈ batch.2, x ∈ initial ∨ x ∈ (s.pool batch.1).early

theorem Kept.start (initial : List α) : Kept initial (Pools.start initial) := by
  refine ⟨fun i => ?_,fun i => List.nil_suffix,by simp [Pools.start]⟩
  simp [Pools.start, taken, Pool.arrived]

theorem Kept.arrival {initial : List α} {s : Pools α} (kept : Kept initial s) (size i : Nat) (a : α) :
    Kept initial (s.step size (.arrival i a)) := by
  constructor
  · intro j
    rw [pool_arrival]
    split
    next =>
      change ((s.pool j).stack ++ [a] ++ taken j s.batches).Perm
        (initial ++ ((s.pool j).early ++ ((s.pool j).recent ++ [a])))
      have moved : ((s.pool j).stack ++ [a] ++ taken j s.batches).Perm ((s.pool j).stack ++ taken j s.batches ++ [a]) := by
        rw [List.append_assoc, List.append_assoc]
        exact List.perm_append_comm.append_left _
      have grown := (kept.conserved j).append_right [a]
      rw [Pool.arrived, ← List.append_assoc, List.append_assoc (initial ++ _), List.append_assoc initial] at grown
      exact moved.trans grown
    next => exact kept.conserved j
  · intro j
    rw [pool_arrival]
    split
    next =>
      obtain ⟨below,whole⟩ := kept.top j
      exact ⟨below,by rw [Pool.arrive, ← whole, List.append_assoc]⟩
    next => exact kept.top j
  · intro batch member x inside
    refine (kept.source batch member x inside).imp_right fun early => ?_
    rw [pool_arrival]
    split
    next => exact early
    next => exact early

theorem taken_append (i : Nat) (batches later : List (Nat × List α)) :
    taken i (batches ++ later) = taken i batches ++ taken i later := by
  simp [taken, List.filter_append]

theorem Kept.turn {initial : List α} {s : Pools α} (kept : Kept initial s) (size i : Nat) :
    Kept initial (s.step size (.turn i)) := by
  have batches : (s.step size (.turn i)).batches = s.batches ++ [(i,newest size (s.pool i).stack)] := rfl
  constructor
  · intro j
    rw [pool_turn, batches, taken_append]
    split
    next own =>
      subst own
      have split : (s.pool j).stack.take ((s.pool j).stack.length - size) ++ newest size (s.pool j).stack =
          (s.pool j).stack := List.take_append_drop _ _
      have last : taken j [(j,newest size (s.pool j).stack)] = newest size (s.pool j).stack := by simp [taken]
      rw [last]
      change ((s.pool j).stack.take _ ++ (taken j s.batches ++ newest size (s.pool j).stack)).Perm
        (initial ++ ((s.pool j).arrived ++ []))
      rw [List.append_nil]
      refine (List.Perm.append_left _ List.perm_append_comm).trans ?_
      rw [← List.append_assoc, split]
      exact kept.conserved j
    next other =>
      have last : taken j [(i,newest size (s.pool i).stack)] = [] := by simp [taken, Ne.symm other]
      rw [last, List.append_nil]
      exact kept.conserved j
  · intro j
    rw [pool_turn]
    split
    next => exact List.nil_suffix
    next => exact kept.top j
  · intro batch member x inside
    rw [pool_turn]
    rcases List.mem_append.mp (batches ▸ member) with old | new
    · have source := kept.source batch old x inside
      split
      next => exact source.imp_right fun early => List.mem_append_left _ early
      next => exact source
    · obtain rfl := List.mem_singleton.mp new
      have held : x ∈ (s.pool i).stack ++ taken i s.batches := List.mem_append_left _ (List.mem_of_mem_drop inside)
      rw [if_pos rfl]
      exact List.mem_append.mp ((kept.conserved i).mem_iff.mp held)

theorem Kept.run (size : Nat) (initial : List α) (log : List (Event α)) : Kept initial (run size initial log) := by
  induction log using List.reverseRecOn with
  | nil => exact .start initial
  | append_singleton past e ih =>
    rw [run_append]
    cases e with
    | arrival i a => exact ih.arrival size i a
    | turn i => exact ih.turn size i

/-- An element that arrived once at an owner is taken by it at most once. -/
theorem Kept.taken_once [BEq α] [LawfulBEq α] {initial : List α} {s : Pools α} (kept : Kept initial s) {x : α}
    (new : x ∉ initial) (once : ∀ i, (s.pool i).arrived.count x ≤ 1) (i : Nat) : (taken i s.batches).count x ≤ 1 := by
  have counts := (kept.conserved i).count_eq x
  rw [List.count_append, List.count_append, List.count_eq_zero.mpr new, Nat.zero_add] at counts
  have := once i
  omega

theorem taken_cons (i : Nat) (batch : Nat × List α) (rest : List (Nat × List α)) :
    taken i (batch :: rest) = (if batch.1 = i then batch.2 else []) ++ taken i rest := by
  by_cases own : batch.1 = i <;> simp [taken, own]

/-- Where each owner takes an element at most once, it is taken once exactly if no two owners take it. -/
theorem count_le_one_iff [BEq α] [LawfulBEq α] {batches : List (Nat × List α)} {x : α}
    (own : ∀ i, (taken i batches).count x ≤ 1) : (batches.flatMap Prod.snd).count x ≤ 1 ↔
      batches.Pairwise fun a b => a.1 ≠ b.1 → x ∈ a.2 → x ∉ b.2 := by
  induction batches with
  | nil => simp
  | cons a rest ih =>
    have later (i : Nat) : (taken i rest).count x ≤ 1 := by
      have whole := own i
      rw [taken_cons, List.count_append] at whole
      omega
    have head := own a.1
    rw [taken_cons, if_pos rfl, List.count_append] at head
    rw [List.flatMap_cons, List.count_append, List.pairwise_cons, ← ih later]
    constructor
    · intro few
      refine ⟨fun b member _ here there => ?_,by omega⟩
      have first := List.count_pos_iff.mpr here
      have second := List.count_pos_iff.mpr (List.mem_flatMap.mpr ⟨b,member,there⟩)
      omega
    · rintro ⟨apart,few⟩
      by_cases here : x ∈ a.2
      · have first := List.count_pos_iff.mpr here
        have none : (rest.flatMap Prod.snd).count x = 0 := by
          rw [List.count_eq_zero]
          intro there
          obtain ⟨b,member,inside⟩ := List.mem_flatMap.mp there
          by_cases same : b.1 = a.1
          · have second : x ∈ taken a.1 rest :=
              List.mem_flatMap.mpr ⟨b,List.mem_filter.mpr ⟨member,by simp [same]⟩,inside⟩
            have := List.count_pos_iff.mpr second
            omega
          · exact apart b member (Ne.symm same) here inside
        omega
      · rw [List.count_eq_zero.mpr here]
        omega

/-- What lies below newer elements is left alone, so owners whose pools are covered at their turns
take different elements. -/
theorem Covered.apart {size : Nat} {initial : List α} {log : List (Event α)} (covered : Covered size initial log) :
    Apart initial (run size initial log).batches := by
  induction log using List.reverseRecOn with
  | nil => exact List.Pairwise.nil
  | append_singleton past e ih =>
    have before := ih fun earlier i part => covered earlier i (part.trans (List.prefix_append _ _))
    rw [run_append]
    cases e with
    | arrival i a => exact before
    | turn i =>
      change Apart initial ((run size initial past).batches ++ [_])
      refine List.pairwise_append.mpr ⟨before,List.pairwise_singleton _ _,?_⟩
      intro a member b last other x inside new taken
      rw [List.mem_singleton.mp last] at other taken
      have kept := Kept.run size initial past
      have early := (kept.source a member x inside).resolve_left new
      have arrived : x ∈ ((run size initial past).pool i).arrived := by
        have held := List.mem_append_left (Pools.taken i (run size initial past).batches) (List.mem_of_mem_drop taken)
        exact (List.mem_append.mp ((kept.conserved i).mem_iff.mp held)).resolve_left new
      obtain ⟨enough,buried⟩ := covered past i List.prefix_rfl a.1 other x early arrived
      obtain ⟨below,whole⟩ := kept.top i
      rw [← whole, newest_append below _ enough] at taken
      exact buried taken

end Pools

end Lifo
