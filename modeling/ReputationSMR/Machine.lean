import Mathlib.Data.List.Basic
import Mathlib.Data.Option.Basic
import Mathlib.Algebra.BigOperators.Group.List.Basic
import Mathlib.Algebra.GroupWithZero.Nat
import Mathlib.Tactic.Push

/-! Deterministic machines whose events are gated by a predicate on the state.
An event that is not enabled does not occur; an enabled event whose step is
`none` is a crash. The two are kept apart because safety of a run says nothing
about an event that was never admitted. -/
namespace Guarded

structure Machine (σ ε : Type) where
  enabled : σ → ε → Prop
  step : σ → ε → Option σ

namespace Machine

variable {σ ε : Type}

/-- The events of a run are listed in the order in which they happened. -/
inductive Run (M : Machine σ ε) (start : σ) : List ε → σ → Prop where
  | nil : Run M start [] start
  | snoc {trace : List ε} {s t : σ} {e : ε} : Run M start trace s → M.enabled s e →
      M.step s e = some t → Run M start (trace ++ [e]) t

/-- The same machine with one more condition on every event. -/
def restrict (M : Machine σ ε) (P : σ → ε → Prop) : Machine σ ε :=
  ⟨fun s e => M.enabled s e ∧ P s e, M.step⟩

instance (M : Machine σ ε) (P : σ → ε → Prop) [∀ s e, Decidable (M.enabled s e)]
    [∀ s e, Decidable (P s e)] (s : σ) (e : ε) : Decidable ((M.restrict P).enabled s e) :=
  inferInstanceAs (Decidable (_ ∧ _))

variable {M : Machine σ ε} {start s t : σ} {trace : List ε}

/-- What holds at the start and survives every admitted event holds along the run. -/
theorem Run.invariant {I : σ → Prop} (initial : I start)
    (preserved : ∀ s e t, I s → M.enabled s e → M.step s e = some t → I t)
    (run : Run M start trace s) : I s := by
  induction run with
  | nil => exact initial
  | snoc _ admitted moved ih => exact preserved _ _ _ ih admitted moved

/-- The invariant rule with progress: no admitted event crashes. -/
theorem Run.safe {I : σ → Prop} (initial : I start)
    (progress : ∀ s e, I s → M.enabled s e → ∃ t, M.step s e = some t ∧ I t)
    (run : Run M start trace s) : I s ∧ ∀ e, M.enabled s e → (M.step s e).isSome := by
  have holds : I s := run.invariant initial fun s e t before admitted moved => by
    obtain ⟨next,same,after⟩ := progress s e before admitted
    exact Option.some.inj (moved.symm.trans same) ▸ after
  refine ⟨holds,fun e admitted => ?_⟩
  obtain ⟨next,moved,_⟩ := progress s e holds admitted
  simp [moved]

/-- The invariant rule with the history of the run at hand. -/
theorem Run.history {I : List ε → σ → Prop} (initial : I [] start)
    (preserved : ∀ past s e t, Run M start past s → I past s → M.enabled s e →
      M.step s e = some t → I (past ++ [e]) t)
    (run : Run M start trace s) : I trace s := by
  induction run with
  | nil => exact initial
  | snoc earlier admitted moved ih => exact preserved _ _ _ _ earlier ih admitted moved

theorem Run.unrestrict {P : σ → ε → Prop} (run : Run (M.restrict P) start trace s) :
    Run M start trace s := by
  induction run with
  | nil => exact .nil
  | snoc _ admitted moved ih => exact .snoc ih admitted.1 moved

theorem Run.restricted {P : σ → ε → Prop} {Q : ε → Prop} (each : ∀ e ∈ trace, Q e)
    (run : Run (M.restrict P) start trace s) : Run (M.restrict fun s e => P s e ∧ Q e) start trace s := by
  induction run with
  | nil => exact .nil
  | snoc _ admitted moved ih =>
    obtain ⟨past,last⟩ := List.forall_mem_append.mp each
    exact .snoc (ih past) ⟨admitted.1,admitted.2,last _ List.mem_cons_self⟩ moved

theorem Run.split {earlier later : List ε} (run : Run M start (earlier ++ later) s) :
    ∃ middle, Run M start earlier middle ∧ Run M middle later s := by
  generalize whole : earlier ++ later = trace at run
  induction run generalizing later with
  | nil =>
    obtain ⟨rfl,rfl⟩ := List.append_eq_nil_iff.mp whole
    exact ⟨_,.nil,.nil⟩
  | @snoc past u w e before admitted moved ih =>
    rcases List.eq_nil_or_concat later with rfl | ⟨front,last,rfl⟩
    · rw [List.append_nil] at whole
      subst whole
      exact ⟨_,.snoc before admitted moved,.nil⟩
    · rw [List.concat_eq_append, ← List.append_assoc] at whole
      obtain ⟨rfl,same⟩ := List.append_inj' whole rfl
      obtain rfl := List.singleton_inj.mp same
      obtain ⟨middle,left,right⟩ := ih rfl
      refine ⟨middle,left,?_⟩
      rw [List.concat_eq_append]
      exact .snoc right admitted moved

theorem Run.event {earlier later : List ε} {e : ε} (run : Run M start (earlier ++ e :: later) s) :
    ∃ before after, Run M start earlier before ∧ M.enabled before e ∧
      M.step before e = some after ∧ Run M start (earlier ++ [e]) after ∧ Run M after later s := by
  rw [← List.singleton_append, ← List.append_assoc] at run
  obtain ⟨after,left,right⟩ := run.split
  generalize whole : earlier ++ [e] = trace at left
  cases left with
  | nil => simp at whole
  | @snoc past before _ last prior admitted moved =>
    obtain ⟨rfl,same⟩ := List.append_inj' whole rfl
    obtain rfl := List.singleton_inj.mp same
    exact ⟨before,after,prior,admitted,moved,.snoc prior admitted moved,right⟩

theorem Run.functional (left : Run M start trace s) (right : Run M start trace t) : s = t := by
  induction left generalizing t with
  | nil =>
    generalize whole : ([] : List ε) = trace at right
    cases right with
    | nil => rfl
    | snoc => simp at whole
  | @snoc past u w e before admitted moved ih =>
    generalize whole : past ++ [e] = trace at right
    cases right with
    | nil => simp at whole
    | @snoc other u' _ last before' _ moved' =>
      obtain ⟨rfl,same⟩ := List.append_inj' whole rfl
      obtain rfl := List.singleton_inj.mp same
      rw [ih before'] at moved
      exact Option.some.inj (moved.symm.trans moved')

theorem Run.append {later : List ε} (run : Run M start trace s) (rest : Run M s later t) :
    Run M start (trace ++ later) t := by
  induction rest with
  | nil => simpa using run
  | snoc _ admitted moved ih =>
    rw [← List.append_assoc]
    exact .snoc ih admitted moved

/-- Forward simulation: if every step of a machine can be followed by some steps of another one that
lead to related states again, every run of the first is followed by a run of the second. -/
theorem Run.simulate {τ δ : Type} {N : Machine τ δ} {R : σ → τ → Prop} {a : τ}
    (follows : ∀ s e t b, R s b → M.enabled s e → M.step s e = some t → ∃ later b', Run N b later b' ∧ R t b')
    (initial : R start a) (run : Run M start trace s) : ∃ later b, Run N a later b ∧ R s b := by
  induction run with
  | nil => exact ⟨[],a,.nil,initial⟩
  | snoc _ admitted moved ih =>
    obtain ⟨earlier,b,matched,related⟩ := ih
    obtain ⟨later,b',rest,still⟩ := follows _ _ _ _ related admitted moved
    exact ⟨earlier ++ later,b',matched.append rest,still⟩

/-- A potential that is fed by the cost of the events and pays for those that are counted. -/
theorem Run.account (potential : σ → Nat) (counts cost : ε → Nat)
    (pays : ∀ s e t, M.enabled s e → M.step s e = some t → potential t + counts e ≤ potential s + cost e)
    (run : Run M start trace s) :
    potential s + (trace.map counts).sum ≤ potential start + (trace.map cost).sum := by
  induction run with
  | nil => exact Nat.le_refl _
  | @snoc past u w e _ admitted moved ih =>
    have last := pays u e w admitted moved
    simp only [List.map_append, List.map_cons, List.map_nil, List.sum_append, List.sum_singleton]
    omega

/-- When every step lowers a potential, a run can be continued until no step is left. -/
theorem Run.settles (potential : σ → Nat)
    (lowers : ∀ s e t, M.enabled s e → M.step s e = some t → potential t < potential s)
    (run : Run M start trace s) :
    ∃ later t, Run M start (trace ++ later) t ∧ ∀ e, M.enabled t e → M.step t e = none := by
  induction size : potential s using Nat.strongRecOn generalizing s trace with
  | ind size ih =>
    by_cases rest : ∀ e, M.enabled s e → M.step s e = none
    · exact ⟨[],s,by simpa using run,rest⟩
    · push Not at rest
      obtain ⟨e,admitted,moves⟩ := rest
      obtain ⟨t,moved⟩ := Option.ne_none_iff_exists'.mp moves
      obtain ⟨later,u,whole,still⟩ := ih (potential t) (size ▸ lowers s e t admitted moved)
        (.snoc run admitted moved) rfl
      exact ⟨e :: later,u,by simpa using whole,still⟩

/-- A log beside the state, which grows with each step by what is observed of it. No step
reads it, but a condition on later events may. -/
structure Logged (σ γ : Type) where
  state : σ
  log : List γ

def observed {γ : Type} (M : Machine σ ε) (observe : σ → ε → σ → List γ) : Machine (Logged σ γ) ε :=
  ⟨fun s e => M.enabled s.state e,
    fun s e => (M.step s.state e).map fun t => ⟨t,s.log ++ observe s.state e t⟩⟩

instance {γ : Type} (M : Machine σ ε) (observe : σ → ε → σ → List γ) [∀ s e, Decidable (M.enabled s e)]
    (s : Logged σ γ) (e : ε) : Decidable ((M.observed observe).enabled s e) :=
  inferInstanceAs (Decidable (M.enabled s.state e))

theorem observed_step {γ : Type} {observe : σ → ε → σ → List γ} {s t : Logged σ γ} {e : ε}
    (moved : (M.observed observe).step s e = some t) :
    M.step s.state e = some t.state ∧ t.log = s.log ++ observe s.state e t.state := by
  obtain ⟨t,stepped,rfl⟩ := Option.map_eq_some_iff.mp moved
  exact ⟨stepped,rfl⟩

theorem Run.forget {γ : Type} {observe : σ → ε → σ → List γ} {begin s : Logged σ γ}
    (run : Run (M.observed observe) begin trace s) : Run M begin.state trace s.state := by
  induction run with
  | nil => exact .nil
  | snoc _ admitted moved ih => exact .snoc ih admitted (observed_step moved).1

/-- Replays a trace, refusing an event that is not enabled. -/
def replay (M : Machine σ ε) [∀ s e, Decidable (M.enabled s e)] : List ε → σ → Option σ
  | [], s => some s
  | e :: rest, s => if M.enabled s e then (M.step s e).bind (replay M rest) else none

theorem replay_run [∀ s e, Decidable (M.enabled s e)] :
    ∀ {later : List ε} {middle : σ}, Run M start trace middle → M.replay later middle = some s →
      Run M start (trace ++ later) s := by
  intro later
  induction later generalizing trace with
  | nil =>
    intro middle run done
    obtain rfl := Option.some.inj done
    simpa using run
  | cons e rest ih =>
    intro middle run done
    simp only [replay] at done
    split at done
    · rename_i admitted
      obtain ⟨next,moved,left⟩ := Option.bind_eq_some_iff.mp done
      have := ih (.snoc run admitted moved) left
      simpa using this
    · contradiction

theorem reaches [∀ s e, Decidable (M.enabled s e)] (Q : σ → Prop) [DecidablePred Q]
    (replayed : (M.replay trace start).any (fun s => decide (Q s)) = true) :
    ∃ s, Run M start trace s ∧ Q s := by
  cases found : M.replay trace start with
  | none => simp [found] at replayed
  | some s => exact ⟨s,by simpa using replay_run .nil found,by simpa [found] using replayed⟩

end Machine

/-- Steps that keep an invariant and commute where it holds can be taken in any order. -/
theorem foldlM_perm {σ ε : Type} {f : σ → ε → Option σ} {I : σ → Prop} {es es' : List ε} (perm : es.Perm es')
    (keeps : ∀ e ∈ es, ∀ s t, I s → f s e = some t → I t)
    (commutes : ∀ e ∈ es, ∀ e' ∈ es, ∀ s, I s → (f s e).bind (f · e') = (f s e').bind (f · e))
    {s : σ} (initial : I s) : es.foldlM f s = es'.foldlM f s := by
  induction perm generalizing s with
  | nil => rfl
  | @cons e rest rest' _ ih =>
    simp only [List.foldlM_cons, Option.bind_eq_bind]
    refine Option.bind_congr fun t moved => ih ?_ ?_ (keeps e List.mem_cons_self s t initial moved)
    · exact fun e' member => keeps e' (List.mem_cons_of_mem e member)
    · exact fun e' member e'' member' =>
        commutes e' (List.mem_cons_of_mem e member) e'' (List.mem_cons_of_mem e member')
  | swap e e' rest =>
    have swapped := commutes e (by simp) e' (by simp) s initial
    simp only [List.foldlM_cons, Option.bind_eq_bind, ← Option.bind_assoc, swapped]
  | trans first _ ih ih' =>
    rw [ih keeps commutes initial]
    refine ih' ?_ ?_ initial
    · exact fun e member => keeps e (first.mem_iff.mpr member)
    · exact fun e member e' member' => commutes e (first.mem_iff.mpr member) e' (first.mem_iff.mpr member')

/-- When a step leaves a state in which it is settled, and what is settled stays so, a sequence of
steps leaves a state in which all of them are settled. -/
theorem foldlM_settles {σ ε : Type} {f : σ → ε → Option σ} {I : σ → Prop} {S : σ → ε → Prop} {es : List ε}
    (keeps : ∀ e s t, I s → f s e = some t → I t) (settles : ∀ e s t, I s → f s e = some t → S t e)
    (stays : ∀ e e' s t, I s → S s e → f s e' = some t → S t e)
    {s t : σ} (initial : I s) (done : es.foldlM f s = some t) : ∀ e ∈ es, S t e := by
  have later {rest : List ε} : ∀ {s : σ} {e : ε}, I s → S s e → rest.foldlM f s = some t → S t e := by
    induction rest with
    | nil =>
      intro s e _ before done
      obtain rfl := Option.some.inj done
      exact before
    | cons e' rest ih =>
      intro s e inv before done
      rw [List.foldlM_cons, Option.bind_eq_bind, Option.bind_eq_some_iff] at done
      obtain ⟨u,moved,done⟩ := done
      exact ih (keeps e' s u inv moved) (stays e e' s u inv before moved) done
  induction es generalizing s with
  | nil => simp
  | cons e rest ih =>
    rw [List.foldlM_cons, Option.bind_eq_bind, Option.bind_eq_some_iff] at done
    obtain ⟨u,moved,done⟩ := done
    have inv := keeps e s u initial moved
    intro e' member
    rcases List.mem_cons.mp member with rfl | member
    · exact later inv (settles e' s u initial moved) done
    · exact ih inv done e' member

theorem foldlM_relates {σ ε : Type} {f : σ → ε → Option σ} {R : σ → σ → Prop} {I : σ → Prop} {es : List ε}
    (reflexive : ∀ s, R s s) (composes : ∀ s t u, R s t → R t u → R s u)
    (keeps : ∀ e s t, I s → f s e = some t → I t ∧ R s t) {s t : σ} (initial : I s)
    (done : es.foldlM f s = some t) : I t ∧ R s t := by
  induction es generalizing s with
  | nil =>
    obtain rfl := Option.some.inj done
    exact ⟨initial,reflexive s⟩
  | cons e rest ih =>
    rw [List.foldlM_cons, Option.bind_eq_bind, Option.bind_eq_some_iff] at done
    obtain ⟨u,moved,done⟩ := done
    obtain ⟨inv,related⟩ := keeps e s u initial moved
    obtain ⟨final,whole⟩ := ih inv done
    exact ⟨final,composes s u t related whole⟩

end Guarded
