import Mathlib.Data.Finset.Card
import Mathlib.Data.Finset.Range
import Mathlib.Data.List.Nodup
import ReputationSMR.Machine

/-! `util/timer.go`. `Start` makes a timer of the runtime, keeps it in the struct and starts a goroutine
that waits for it; but the goroutine looks into the struct only when it is scheduled, and by then another
`Start` may have put its own timer there. -/
namespace ReputationSMR

/-- The struct; timers of the runtime and channels are named by numbers. -/
structure Timer (κ : Type) where
  callable : Option κ
  dur : Nat
  internalTimer : Option Nat
  cancel : Option Nat

/-- The struct with what the runtime keeps for it: how many timers and `cancel` channels were made, the timers that
run and those whose channel holds a tick, the goroutines before their `select` and those in it, with the
timer and the channel that they found, and the calls of `Cancel` that wait. Of the past, it keeps the timers
that goroutines have found and the callbacks. -/
structure TimerRuntime (κ : Type) where
  timer : Timer κ
  made : Nat
  channels : Nat
  running : List Nat
  ticks : List Nat
  ready : Nat
  selecting : List (Nat × Option Nat)
  cancelling : List Nat
  found : List Nat
  calls : List κ

inductive TimerEvent (κ : Type) where
  | setTime (dur : Nat)
  | setCallAndCancel (call : κ)
  | start
  | reset
  | cancel
  | select
  | expire (t : Nat)
  | tick (i : Nat)
  | stop (i k : Nat)

variable {κ : Type}

namespace TimerRuntime

def init : TimerRuntime κ := ⟨⟨none,0,none,none⟩,0,0,[],[],0,[],[],[],[]⟩

/-- A send to the absent channel of a new struct waits forever. -/
def enabled (s : TimerRuntime κ) : TimerEvent κ → Prop
  | .cancel => s.timer.cancel.isSome
  | .select => 0 < s.ready
  | .expire t => t ∈ s.running
  | .tick i => ∃ g ∈ s.selecting[i]?, g.1 ∈ s.ticks
  | .stop i k => ∃ g ∈ s.selecting[i]?, ∃ ch ∈ s.cancelling[k]?, g.2 = some ch
  | .setTime _ | .setCallAndCancel _ | .start | .reset => True

instance (s : TimerRuntime κ) (e : TimerEvent κ) : Decidable (s.enabled e) :=
  match e with
  | .cancel => inferInstanceAs (Decidable (_ = true))
  | .select => inferInstanceAs (Decidable (_ < _))
  | .expire _ => inferInstanceAs (Decidable (_ ∈ _))
  | .tick i => inferInstanceAs (Decidable (∃ g ∈ s.selecting[i]?, _))
  | .stop i _ => inferInstanceAs (Decidable (∃ g ∈ s.selecting[i]?, _))
  | .setTime _ | .setCallAndCancel _ | .start | .reset => isTrue trivial

def step (s : TimerRuntime κ) : TimerEvent κ → Option (TimerRuntime κ)
  | .setTime dur => some { s with timer := { s.timer with dur := dur } }
  | .setCallAndCancel call => some { s with
      timer := { s.timer with callable := some call, cancel := some s.channels }
      channels := s.channels + 1 }
  | .start => some { s with
      timer := { s.timer with internalTimer := some s.made }
      made := s.made + 1
      running := s.running ++ [s.made]
      ready := s.ready + 1 }
  | .reset => s.timer.internalTimer.map fun t =>
      { s with running := if t ∈ s.running then s.running else s.running ++ [t] }
  | .cancel => s.timer.cancel.map fun ch => { s with cancelling := s.cancelling ++ [ch] }
  | .select => s.timer.internalTimer.map fun t => { s with
      ready := s.ready - 1
      selecting := s.selecting ++ [(t,s.timer.cancel)]
      found := s.found ++ [t] }
  | .expire t => some { s with
      running := s.running.erase t
      ticks := if t ∈ s.ticks then s.ticks else s.ticks ++ [t] }
  | .tick i => s.selecting[i]?.bind fun g => s.timer.callable.map fun call => { s with
      selecting := s.selecting.eraseIdx i
      ticks := s.ticks.erase g.1
      calls := s.calls ++ [call] }
  | .stop i k => some { s with
      -- the timer in the struct is stopped, which need not be the one that the goroutine waited for
      running := s.timer.internalTimer.elim s.running s.running.erase
      selecting := s.selecting.eraseIdx i
      cancelling := s.cancelling.eraseIdx k }

/-- All timers have expired and all goroutines that can run have run. -/
def Quiet (s : TimerRuntime κ) : Prop := s.running = [] ∧ s.ready = 0 ∧ ∀ g ∈ s.selecting, g.1 ∉ s.ticks

instance (s : TimerRuntime κ) : Decidable s.Quiet := inferInstanceAs (Decidable (_ ∧ _))

end TimerRuntime

def timerMachine (κ : Type) : Guarded.Machine (TimerRuntime κ) (TimerEvent κ) :=
  ⟨TimerRuntime.enabled,TimerRuntime.step⟩

instance (s : TimerRuntime κ) (e : TimerEvent κ) : Decidable ((timerMachine κ).enabled s e) :=
  inferInstanceAs (Decidable (s.enabled e))

/-- The protocol neither resets nor cancels its timer. -/
def TimerEvent.plain : TimerEvent κ → Bool
  | .reset | .cancel | .stop _ _ => false
  | _ => true

def TimerEvent.isStart : TimerEvent κ → Bool
  | .start => true
  | _ => false

def TimerEvent.isSelect : TimerEvent κ → Bool
  | .select => true
  | _ => false

/-- Before each `Start` the goroutines of the earlier ones have reached their `select`. -/
def Prompt (trace : List (TimerEvent κ)) : Prop :=
  ∀ earlier later, trace = earlier ++ .start :: later →
    earlier.countP TimerEvent.isStart = earlier.countP TimerEvent.isSelect

/-! ## Goroutines and timers -/

/-- Every goroutine is before its `select`, in it or has called, and every timer runs, has ticked or has been called for. -/
structure TimerAccount (past : List (TimerEvent κ)) (s : TimerRuntime κ) : Prop where
  starts : past.countP TimerEvent.isStart = s.made
  selects : past.countP TimerEvent.isSelect = s.found.length
  goroutines : s.made = s.ready + s.found.length
  finding : s.found.length = s.selecting.length + s.calls.length
  timers : s.running.length + s.ticks.length + s.calls.length = s.made
  distinct : (s.running ++ s.ticks).Nodup
  known : ∀ t ∈ s.running ++ s.ticks, t < s.made
  current : ∀ t ∈ s.timer.internalTimer, t + 1 = s.made
  old : ∀ t ∈ s.found, t < s.made
  selected : ∀ g ∈ s.selecting, g.1 ∈ s.found
  waits : ∀ t ∈ s.found, t ∈ s.running ++ s.ticks → t ∈ s.selecting.map Prod.fst
  spent : ∀ t < s.made, t ∉ s.running ++ s.ticks → t ∈ s.found

section Steps

variable {past : List (TimerEvent κ)} {s t : TimerRuntime κ} {e : TimerEvent κ}

theorem TimerAccount.init : TimerAccount [] (TimerRuntime.init : TimerRuntime κ) := by
  constructor <;> simp [TimerRuntime.init]

theorem countP_other (past : List (TimerEvent κ)) (start : e.isStart = false) (select : e.isSelect = false) :
    (past ++ [e]).countP TimerEvent.isStart = past.countP TimerEvent.isStart ∧
      (past ++ [e]).countP TimerEvent.isSelect = past.countP TimerEvent.isSelect := by
  simp [List.countP_append,start,select]

theorem TimerAccount.start (account : TimerAccount past s) (stepped : s.step .start = some t) :
    TimerAccount (past ++ [.start]) t := by
  obtain rfl := Option.some.inj stepped
  have fresh : s.made ∉ s.running ++ s.ticks := fun member => Nat.lt_irrefl _ (account.known _ member)
  have order : (s.running ++ [s.made] ++ s.ticks).Perm (s.made :: (s.running ++ s.ticks)) := by
    rw [List.append_assoc]
    exact List.perm_middle
  refine ⟨?_,?_,?_,account.finding,?_,?_,?_,?_,?_,account.selected,?_,?_⟩
  · rw [List.countP_append, account.starts]
    rfl
  · rw [List.countP_append, account.selects]
    rfl
  · have := account.goroutines
    dsimp only
    omega
  · have := account.timers
    simp only [List.length_append, List.length_singleton]
    omega
  · exact order.nodup_iff.mpr (List.nodup_cons.mpr ⟨fresh,account.distinct⟩)
  · intro t member
    rcases List.mem_cons.mp (order.mem_iff.mp member) with rfl | old
    · exact Nat.lt_succ_self _
    · exact Nat.lt_succ_of_lt (account.known t old)
  · intro t held
    rw [← Option.some.inj held]
  · exact fun t member => Nat.lt_succ_of_lt (account.old t member)
  · intro t member listed
    rcases List.mem_cons.mp (order.mem_iff.mp listed) with rfl | old
    · exact absurd (account.old _ member) (Nat.lt_irrefl _)
    · exact account.waits t member old
  · intro t bound absent
    have absent := mt order.mem_iff.mpr absent
    rw [List.mem_cons, not_or] at absent
    have bound : t < s.made + 1 := bound
    exact account.spent t (by omega) absent.2

theorem TimerAccount.select (account : TimerAccount past s) (enabled : s.enabled .select) (stepped : s.step .select = some t) :
    TimerAccount (past ++ [.select]) t := by
  obtain ⟨x,held,rfl⟩ := Option.map_eq_some_iff.mp stepped
  have newest := account.current x held
  have ready : 0 < s.ready := enabled
  refine ⟨?_,?_,?_,?_,account.timers,account.distinct,account.known,account.current,?_,?_,?_,?_⟩
  · rw [List.countP_append, account.starts]
    rfl
  · rw [List.countP_append, account.selects, List.length_append]
    rfl
  · have := account.goroutines
    simp only [List.length_append, List.length_singleton]
    omega
  · have := account.finding
    simp only [List.length_append, List.length_singleton]
    omega
  · intro t member
    rcases List.mem_append.mp member with old | new
    · exact account.old t old
    · obtain rfl := List.mem_singleton.mp new
      dsimp only
      omega
  · intro g member
    rcases List.mem_append.mp member with old | new
    · exact List.mem_append_left _ (account.selected g old)
    · rw [List.mem_singleton.mp new]
      exact List.mem_append_right _ List.mem_cons_self
  · intro t member listed
    rw [List.map_append]
    rcases List.mem_append.mp member with old | new
    · exact List.mem_append_left _ (account.waits t old listed)
    · rw [List.mem_singleton.mp new]
      exact List.mem_append_right _ List.mem_cons_self
  · exact fun t bound absent => List.mem_append_left _ (account.spent t bound absent)

theorem TimerAccount.expire {x : Nat} (account : TimerAccount past s) (enabled : s.enabled (.expire x))
    (stepped : s.step (.expire x) = some t) : TimerAccount (past ++ [.expire x]) t := by
  obtain rfl := Option.some.inj stepped
  have runs : x ∈ s.running := enabled
  have silent : x ∉ s.ticks := fun ticked => (List.disjoint_of_nodup_append account.distinct) runs ticked
  have order : (s.running.erase x ++ (s.ticks ++ [x])).Perm (s.running ++ s.ticks) := by
    have moved : (s.running.erase x ++ (s.ticks ++ [x])).Perm (x :: s.running.erase x ++ s.ticks) := by
      rw [← List.append_assoc]
      exact List.perm_append_singleton _ _
    exact moved.trans ((List.perm_cons_erase runs).symm.append_right _)
  simp only [if_neg silent]
  obtain ⟨starts,selects⟩ := countP_other past (e := TimerEvent.expire (κ := κ) x) rfl rfl
  refine ⟨starts.trans account.starts,selects.trans account.selects,account.goroutines,account.finding,?_,
    order.nodup_iff.mpr account.distinct,fun t member => account.known t (order.mem_iff.mp member),account.current,account.old,
    account.selected,fun t member listed => account.waits t member (order.mem_iff.mp listed),
    fun t bound absent => account.spent t bound (mt order.mem_iff.mpr absent)⟩
  have lengths := order.length_eq
  have := account.timers
  simp only [List.length_append] at lengths ⊢
  omega

theorem TimerAccount.tick {i : Nat} (account : TimerAccount past s) (enabled : s.enabled (.tick i))
    (stepped : s.step (.tick i) = some t) : TimerAccount (past ++ [.tick i]) t := by
  obtain ⟨g,found,called⟩ := Option.bind_eq_some_iff.mp stepped
  obtain ⟨call,_,rfl⟩ := Option.map_eq_some_iff.mp called
  obtain ⟨g',found',ticked⟩ := enabled
  obtain rfl := Option.some.inj (found.symm.trans found')
  obtain ⟨inside,rfl⟩ := List.getElem?_eq_some_iff.mp found
  have silent : s.selecting[i].1 ∉ s.running := fun runs => (List.disjoint_of_nodup_append account.distinct) runs ticked
  have distinct := account.distinct
  have once : s.ticks.Nodup := (List.nodup_append.mp distinct).2.1
  have order : (s.selecting[i].1 :: (s.running ++ s.ticks.erase s.selecting[i].1)).Perm (s.running ++ s.ticks) :=
    List.perm_middle.symm.trans ((List.perm_cons_erase ticked).symm.append_left _)
  have rest := order.nodup_iff.mpr distinct
  obtain ⟨starts,selects⟩ := countP_other past (e := TimerEvent.tick (κ := κ) i) rfl rfl
  refine ⟨starts.trans account.starts,selects.trans account.selects,account.goroutines,?_,?_,
    (List.nodup_cons.mp rest).2,fun t member => account.known t (order.mem_iff.mp (List.mem_cons_of_mem _ member)),
    account.current,account.old,fun g member => account.selected g (List.mem_of_mem_eraseIdx member),?_,?_⟩
  · have := account.finding
    simp only [List.length_append, List.length_singleton, List.length_eraseIdx_of_lt inside]
    omega
  · have lengths := order.length_eq
    have := account.timers
    simp only [List.length_append, List.length_cons, List.length_nil] at lengths ⊢
    omega
  · intro t member listed
    obtain ⟨g,selecting,rfl⟩ := List.mem_map.mp (account.waits t member (order.mem_iff.mp (List.mem_cons_of_mem _ listed)))
    refine List.mem_map.mpr ⟨g,?_,rfl⟩
    obtain ⟨k,bound,atK⟩ := List.mem_iff_getElem.mp selecting
    refine List.mem_eraseIdx_iff_getElem?.mpr ⟨k,?_,by rw [List.getElem?_eq_getElem bound, atK]⟩
    rintro rfl
    rw [← atK] at listed
    exact (List.nodup_cons.mp rest).1 listed
  · intro t bound absent
    by_cases own : t = s.selecting[i].1
    · rw [own]
      exact account.selected _ (List.getElem_mem inside)
    · refine account.spent t bound fun listed => ?_
      exact absent ((List.mem_cons.mp (order.mem_iff.mpr listed)).resolve_left own)

theorem TimerAccount.step (account : TimerAccount past s) (plain : e.plain = true) (enabled : s.enabled e)
    (stepped : s.step e = some t) : TimerAccount (past ++ [e]) t := by
  have kept (same : TimerAccount past t) (start : e.isStart = false) (select : e.isSelect = false) :
      TimerAccount (past ++ [e]) t := by
    obtain ⟨starts,selects⟩ := countP_other past start select
    exact { same with starts := starts.trans same.starts, selects := selects.trans same.selects }
  cases e with
  | setTime dur =>
    obtain rfl := Option.some.inj stepped
    exact kept { account with } rfl rfl
  | setCallAndCancel call =>
    obtain rfl := Option.some.inj stepped
    exact kept { account with } rfl rfl
  | start => exact account.start stepped
  | select => exact account.select enabled stepped
  | expire x => exact account.expire enabled stepped
  | tick i => exact account.tick enabled stepped
  | reset | cancel | stop _ _ => contradiction

end Steps

/-! ## Callbacks -/

section Runs

variable {trace : List (TimerEvent κ)} {s : TimerRuntime κ}

theorem run_account (run : ((timerMachine κ).restrict fun _ e => e.plain = true).Run .init trace s) :
    TimerAccount trace s := by
  refine run.history (I := TimerAccount) .init ?_
  intro past s e t _ account admitted stepped
  exact account.step admitted.2 admitted.1 stepped

theorem Prompt.earlier {past : List (TimerEvent κ)} {e : TimerEvent κ} (prompt : Prompt (past ++ [e])) : Prompt past := by
  intro earlier later split
  exact prompt earlier (later ++ [e]) (by rw [split]; simp)

theorem found_own (run : ((timerMachine κ).restrict fun _ e => e.plain = true).Run .init trace s) (prompt : Prompt trace) :
    s.found = List.range (s.made - s.ready) ∧ s.ready ≤ 1 := by
  refine run.history (I := fun past s => Prompt past → s.found = List.range (s.made - s.ready) ∧ s.ready ≤ 1)
    (fun _ => ⟨rfl,Nat.zero_le 1⟩) ?_ prompt
  intro past s e t run own admitted stepped prompt
  have account := run_account run
  have count := account.goroutines
  obtain ⟨own,one⟩ := own prompt.earlier
  cases e with
  | setTime _ | setCallAndCancel _ | expire _ =>
    obtain rfl := Option.some.inj stepped
    exact ⟨own,one⟩
  | start =>
    have none : s.ready = 0 := by
      have level := prompt past [] rfl
      rw [account.starts, account.selects] at level
      omega
    obtain rfl := Option.some.inj stepped
    refine ⟨own.trans (congrArg List.range ?_),?_⟩ <;> dsimp only <;> omega
  | select =>
    obtain ⟨x,held,rfl⟩ := Option.map_eq_some_iff.mp stepped
    have newest := account.current x held
    have ready : 0 < s.ready := admitted.1
    refine ⟨?_,?_⟩
    · have before : s.made - s.ready = x := by omega
      have after : s.made - (s.ready - 1) = x + 1 := by omega
      dsimp only
      rw [own, before, after, List.range_succ]
    · dsimp only
      omega
  | tick i =>
    obtain ⟨g,_,called⟩ := Option.bind_eq_some_iff.mp stepped
    obtain ⟨_,_,rfl⟩ := Option.map_eq_some_iff.mp called
    exact ⟨own,one⟩
  | reset | cancel | stop _ _ => exact absurd admitted.2 (by simp [TimerEvent.plain])

/-- A timer that was overwritten before any goroutine has found it. -/
def TimerRuntime.Loses (s : TimerRuntime κ) : Prop := ∃ t, t + 1 < s.made ∧ t ∉ s.found

theorem Prompt.snoc {past : List (TimerEvent κ)} {e : TimerEvent κ} (prompt : Prompt past)
    (level : e = .start → past.countP TimerEvent.isStart = past.countP TimerEvent.isSelect) : Prompt (past ++ [e]) := by
  intro earlier later split
  rcases List.eq_nil_or_concat later with rfl | ⟨rest,last,rfl⟩
  · obtain ⟨rfl,same⟩ := List.append_inj' split rfl
    exact level (List.singleton_inj.mp same)
  · rw [List.concat_eq_append, ← List.cons_append, ← List.append_assoc] at split
    exact prompt earlier rest (List.append_inj' split rfl).1

/-- A second `Start` before the goroutine of the first is scheduled loses a timer for good. -/
theorem loses_of_not_prompt (run : ((timerMachine κ).restrict fun _ e => e.plain = true).Run .init trace s)
    (late : ¬Prompt trace) : s.Loses := by
  refine run.history (I := fun past s => ¬Prompt past → s.Loses) (fun late => ?_) ?_ late
  · refine absurd (fun earlier later split => ?_) late
    cases earlier <;> contradiction
  intro past s e t run loses admitted stepped late
  have account := run_account run
  by_cases prompt : Prompt past
  · obtain ⟨rfl,uneven⟩ : e = .start ∧ past.countP TimerEvent.isStart ≠ past.countP TimerEvent.isSelect :=
      Classical.not_imp.mp (mt prompt.snoc late)
    obtain rfl := Option.some.inj stepped
    -- fewer timers were found than made
    have few : s.found.toFinset.card < (Finset.range s.made).card := by
      rw [account.starts, account.selects] at uneven
      have := account.goroutines
      have := s.found.toFinset_card_le
      rw [Finset.card_range]
      omega
    obtain ⟨x,bound,unfound⟩ := Finset.exists_mem_notMem_of_card_lt_card few
    exact ⟨x,Nat.succ_lt_succ (Finset.mem_range.mp bound),mt List.mem_toFinset.mpr unfound⟩
  · obtain ⟨x,bound,unfound⟩ := loses prompt
    cases e with
    | setTime _ | setCallAndCancel _ | expire _ =>
      obtain rfl := Option.some.inj stepped
      exact ⟨x,bound,unfound⟩
    | start =>
      obtain rfl := Option.some.inj stepped
      exact ⟨x,Nat.lt_succ_of_lt bound,unfound⟩
    | select =>
      obtain ⟨y,held,rfl⟩ := Option.map_eq_some_iff.mp stepped
      have newest := account.current y held
      refine ⟨x,bound,fun found => ?_⟩
      rcases List.mem_append.mp found with old | new
      · exact unfound old
      · have := List.mem_singleton.mp new
        omega
    | tick i =>
      obtain ⟨g,_,called⟩ := Option.bind_eq_some_iff.mp stepped
      obtain ⟨_,_,rfl⟩ := Option.map_eq_some_iff.mp called
      exact ⟨x,bound,unfound⟩
    | reset | cancel | stop _ _ => exact absurd admitted.2 (by simp [TimerEvent.plain])

/-- When nothing is left to do, there was one callback for each timer that some goroutine has found. -/
theorem TimerAccount.quiet {past : List (TimerEvent κ)} (account : TimerAccount past s) (quiet : s.Quiet) :
    s.calls.length = s.found.toFinset.card := by
  obtain ⟨expired,_,idle⟩ := quiet
  have distinct := account.distinct
  have timers := account.timers
  rw [expired, List.nil_append] at distinct
  rw [expired, List.length_nil] at timers
  have same : s.found.toFinset = Finset.range s.made \ s.ticks.toFinset := by
    ext t
    simp only [List.mem_toFinset, Finset.mem_sdiff, Finset.mem_range]
    refine ⟨fun found => ⟨account.old t found,fun ticked => ?_⟩,fun ⟨bound,silent⟩ => ?_⟩
    · obtain ⟨g,selecting,rfl⟩ := List.mem_map.mp (account.waits t found (List.mem_append_right _ ticked))
      exact idle g selecting ticked
    · refine account.spent t bound fun listed => ?_
      rw [expired, List.nil_append] at listed
      exact silent listed
  have inside : s.ticks.toFinset ⊆ Finset.range s.made := fun t ticked =>
    Finset.mem_range.mpr (account.known t (List.mem_append_right _ (List.mem_toFinset.mp ticked)))
  rw [same, Finset.card_sdiff_of_subset inside, Finset.card_range, List.toFinset_card_of_nodup distinct]
  omega

/-- In every interleaving there are at most as many callbacks as calls of `Start`. When all timers have expired and
all goroutines have run, there was one callback for each timer that some goroutine has found: one for each
`Start` exactly if each goroutine was scheduled before the next `Start`, and fewer otherwise. -/
theorem timer_calls_back (run : ((timerMachine κ).restrict fun _ e => e.plain = true).Run .init trace s) :
    s.calls.length ≤ trace.countP TimerEvent.isStart ∧
    (s.Quiet → s.calls.length = s.found.toFinset.card) ∧
    (s.Quiet → (s.calls.length = trace.countP TimerEvent.isStart ↔ Prompt trace)) := by
  have account := run_account run
  refine ⟨?_,account.quiet,fun quiet => ⟨fun all => ?_,fun prompt => ?_⟩⟩
  · have timers := account.timers
    rw [account.starts]
    omega
  · by_contra late
    obtain ⟨x,bound,unfound⟩ := loses_of_not_prompt run late
    have missing : s.found.toFinset ⊂ Finset.range s.made := by
      refine Finset.ssubset_iff_subset_ne.mpr ⟨fun t member => ?_,fun same => ?_⟩
      · exact Finset.mem_range.mpr (account.old t (List.mem_toFinset.mp member))
      · have found : x ∈ s.found.toFinset := same ▸ Finset.mem_range.mpr (Nat.lt_of_succ_lt bound)
        exact unfound (List.mem_toFinset.mp found)
    have fewer := Finset.card_lt_card missing
    rw [← account.quiet quiet, all, account.starts, Finset.card_range] at fewer
    exact Nat.lt_irrefl _ fewer
  · have own := (found_own run prompt).1
    rw [quiet.2.1, Nat.sub_zero] at own
    rw [account.quiet quiet, own, account.starts, List.toFinset_card_of_nodup List.nodup_range, List.length_range]

end Runs

/-- The timer is started again before the first goroutine is scheduled. -/
def startedTwice : List (TimerEvent Unit) :=
  [.setCallAndCancel (),.setTime 1,.start,.start,.select,.select,.expire 0,.expire 1,.tick 0]

/-- The second goroutine waits for a tick that the first one has taken. -/
theorem second_start_loses_callback : ∃ s : TimerRuntime Unit,
    ((timerMachine Unit).restrict fun _ e => e.plain = true).Run .init startedTwice s ∧ s.Quiet ∧
      s.found.toFinset.card = 1 ∧ s.calls.length = 1 ∧ startedTwice.countP TimerEvent.isStart = 2 := by
  obtain ⟨s,run,quiet,one⟩ : ∃ s : TimerRuntime Unit,
      ((timerMachine Unit).restrict fun _ e => e.plain = true).Run .init startedTwice s ∧ s.Quiet ∧
        s.found.toFinset.card = 1 := by
    apply Guarded.Machine.reaches
    decide +kernel
  exact ⟨s,run,quiet,one,((timer_calls_back run).2.1 quiet).trans one,rfl⟩

end ReputationSMR
