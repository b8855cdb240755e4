import Mathlib

/-!
# Machines and Their Runs

A state machine with partial steps, the states its runs reach, and the two
ways a result about runs is obtained: an invariant that every step keeps, and
a concrete run that is replayed action by action.

`ReachesWhen` takes a condition on the state before a step and the action
taken there. A run that never meets a certain fault is a run whose steps all
satisfy such a condition, so a result that holds only away from the fault is
still a result about whole runs. `Reachable` is the case of no condition.

Steps are partial functions rather than relations: an action carries every
choice its step leaves open, so a run is a list of actions and can be
computed.

## Main definitions

* `Machine`: Start states and a partial step function.
* `Machine.ReachesWhen`: States of runs whose steps all meet a condition.
* `Machine.Reachable`: States of arbitrary runs.
* `Machine.runWhen`, `Machine.runActions`: Replaying a list of actions, with
  and without a condition.

## Theorems

* `reachesWhen_invariant`: A property kept by every permitted step holds of
  every state of every permitted run.
* `reachable_of_reachesWhen`: A permitted run is a run.
* `reachesWhen_mono`: Weakening the condition keeps the states reached.
* `runActions_append`, `runActions_invariant`: Replaying in two parts, and what
  every action of a list keeps.
* `reachesWhen_runWhen`, `reachable_runActions`: Replaying actions from a state
  of a run ends in a state of a run.
* `update_cases`: What a table of parts holds after one part has changed.
-/

/-- A machine over states `σ` and actions `α`: where runs start, and what an
    action does in a state where it is enabled. -/
structure Machine (σ α : Type*) where
  start : σ → Prop
  step : σ → α → Option σ

namespace Machine

variable {σ α : Type*} {m : Machine σ α} {ok ok' : σ → α → Prop}

/-- The states of runs whose every step meets `ok` in the state it leaves. -/
inductive ReachesWhen (m : Machine σ α) (ok : σ → α → Prop) : σ → Prop
  | start (s : σ) : m.start s → ReachesWhen m ok s
  | step (s : σ) (a : α) (s' : σ) :
      ReachesWhen m ok s → ok s a → m.step s a = some s' → ReachesWhen m ok s'

/-- The states of arbitrary runs. -/
def Reachable (m : Machine σ α) : σ → Prop :=
  ReachesWhen m (fun _ _ => True)

theorem reachesWhen_invariant {P : σ → Prop} (hstart : ∀ s, m.start s → P s)
    (hstep : ∀ s a s', P s → ok s a → m.step s a = some s' → P s')
    {s : σ} (h : ReachesWhen m ok s) : P s := by
  induction h with
  | start s hs => exact hstart s hs
  | step s a s' _ hok hs ih => exact hstep s a s' ih hok hs

theorem reachesWhen_mono (hle : ∀ s a, ok s a → ok' s a) {s : σ} (h : ReachesWhen m ok s) :
    ReachesWhen m ok' s := by
  induction h with
  | start s hs => exact ReachesWhen.start s hs
  | step s a s' _ hok hs ih => exact ReachesWhen.step s a s' ih (hle s a hok) hs

theorem reachable_of_reachesWhen {s : σ} (h : ReachesWhen m ok s) : Reachable m s :=
  reachesWhen_mono (fun _ _ _ => trivial) h

theorem reachable_invariant {P : σ → Prop} (hstart : ∀ s, m.start s → P s)
    (hstep : ∀ s a s', P s → m.step s a = some s' → P s')
    {s : σ} (h : Reachable m s) : P s :=
  reachesWhen_invariant hstart (fun s a s' hs _ he => hstep s a s' hs he) h

/-- Take the actions of a list in order, or `none` where one is not enabled or
    `p` does not hold of it. -/
def runWhen (m : Machine σ α) (p : σ → α → Bool) : σ → List α → Option σ
  | s, [] => some s
  | s, a :: rest => if p s a then (m.step s a).bind (fun s' => runWhen m p s' rest) else none

/-- Take the actions of a list in order, or `none` where one is not enabled. -/
def runActions (m : Machine σ α) : σ → List α → Option σ :=
  runWhen m (fun _ _ => true)

theorem runActions_cons (m : Machine σ α) (s : σ) (a : α) (acts : List α) :
    runActions m s (a :: acts) = (m.step s a).bind (fun s' => runActions m s' acts) := by
  simp only [runActions, runWhen, if_true]

theorem runActions_append (m : Machine σ α) (s : σ) (as bs : List α) :
    runActions m s (as ++ bs) = (runActions m s as).bind (fun s' => runActions m s' bs) := by
  induction as generalizing s with
  | nil => rfl
  | cons a rest ih =>
      rw [List.cons_append, runActions_cons, runActions_cons, Option.bind_assoc]
      exact congrArg _ (funext fun s' => ih s')

/-- A property of states that each action of a list keeps. -/
theorem runActions_invariant {P : σ → Prop} {acts : List α}
    (hstep : ∀ a ∈ acts, ∀ s s', P s → m.step s a = some s' → P s') {s s' : σ} (hs : P s)
    (h : runActions m s acts = some s') : P s' := by
  induction acts generalizing s with
  | nil =>
      simp only [runActions, runWhen, Option.some.injEq] at h
      rw [← h]
      exact hs
  | cons a rest ih =>
      rw [runActions_cons, Option.bind_eq_some_iff] at h
      rcases h with ⟨s₁, hs₁, hrest⟩
      exact ih (fun b hb => hstep b (List.mem_cons_of_mem a hb))
        (hstep a List.mem_cons_self s s₁ hs hs₁) hrest

theorem reachesWhen_runWhen {p : σ → α → Bool} (hp : ∀ s a, p s a = true → ok s a) {s s' : σ}
    {acts : List α} (hs : ReachesWhen m ok s) (h : runWhen m p s acts = some s') :
    ReachesWhen m ok s' := by
  induction acts generalizing s with
  | nil =>
      simp only [runWhen, Option.some.injEq] at h
      rw [← h]
      exact hs
  | cons a rest ih =>
      simp only [runWhen] at h
      split at h
      · rename_i hpa
        rw [Option.bind_eq_some_iff] at h
        rcases h with ⟨s₁, hstep, hrest⟩
        exact ih (ReachesWhen.step s a s₁ hs (hp s a hpa) hstep) hrest
      · exact absurd h (by simp only [reduceCtorEq, not_false_eq_true])

theorem reachable_runActions {s s' : σ} {acts : List α} (hs : Reachable m s)
    (h : runActions m s acts = some s') : Reachable m s' :=
  reachesWhen_runWhen (fun _ _ _ => trivial) hs h

/-- A state that keeps its parts in a table: an entry is the new one, or an old one. -/
theorem update_cases {ι β : Type*} [DecidableEq ι] {f : ι → Option β} {i k : ι} {v x : β}
    (h : Function.update f k (some v) i = some x) : i = k ∧ x = v ∨ i ≠ k ∧ f i = some x := by
  by_cases hi : i = k
  · rw [hi, Function.update_self] at h
    exact .inl ⟨hi, (Option.some.inj h).symm⟩
  · rw [Function.update_of_ne hi] at h
    exact .inr ⟨hi, h⟩

end Machine
