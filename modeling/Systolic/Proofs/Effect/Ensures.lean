import Mathlib.Data.List.Forall2

/-
  This file defines what a stateful action with errors ensures:
  a postcondition if it ends well, and otherwise an error that
  is tolerated. The rules follow the ways actions are put
  together. A result without state yields the same.

  Key definitions include:
    * `Ensures`
    * `Yields`

  Key theorems include:
    * `ensures_bind`
    * `Ensures.forM`
    * `Yields.bind`
    * `Yields.mapM`
-/

namespace Systolic

variable {ε σ α β : Type}

/-
  From a given state, an action ends with a result and a state
  in `Q`, or it fails with an error in `E`.
-/
def Ensures
    (action : EStateM ε σ α)
    (s : σ)
    (E : ε → Prop)
    (Q : α → σ → Prop) : Prop :=
  match action s with
  | .ok a s' => Q a s'
  | .error e _ => E e

------------------------------------------------------------
-- Results
------------------------------------------------------------

section Results

variable {action : EStateM ε σ α} {s : σ}
variable {E : ε → Prop} {Q : α → σ → Prop}
variable {Q' : α → σ → Prop}

section

variable (hEnsures : Ensures action s E Q)
include hEnsures

/- A postcondition holds of the result of an action that ends well. -/
theorem Ensures.of_ok
    {a : α}
    {s' : σ}
    (hRun : action s = .ok a s') :
    Q a s' := by
  unfold Ensures at hEnsures
  rw [hRun] at hEnsures
  exact hEnsures

/- The error of an action that fails is tolerated. -/
theorem Ensures.of_error
    {e : ε}
    {s' : σ}
    (hRun : action s = .error e s') :
    E e := by
  unfold Ensures at hEnsures
  rw [hRun] at hEnsures
  exact hEnsures

/- A weaker postcondition and more tolerated errors. -/
theorem Ensures.mono
    {E' : ε → Prop}
    (hQ : ∀ a s', Q a s' → Q' a s')
    (hE : ∀ e, E e → E' e) :
    Ensures action s E' Q' := by
  unfold Ensures at hEnsures ⊢
  cases hRun : action s with
  | ok a s' =>
      rw [hRun] at hEnsures
      exact hQ a s' hEnsures
  | error e s' =>
      rw [hRun] at hEnsures
      exact hE e hEnsures

/- A weaker postcondition. -/
theorem Ensures.weaken
    (hQ : ∀ a s', Q a s' → Q' a s') :
    Ensures action s E Q' :=
  hEnsures.mono hQ (fun _ hE => hE)

end

/- Two facts about one action. -/
theorem Ensures.and
    {E' : ε → Prop}
    (hLeft : Ensures action s E Q)
    (hRight : Ensures action s E' Q') :
    Ensures action s (fun e => E e ∧ E' e)
      (fun a s' => Q a s' ∧ Q' a s') := by
  unfold Ensures at hLeft hRight ⊢
  cases hRun : action s with
  | ok a s' =>
      rw [hRun] at hLeft hRight
      exact ⟨hLeft, hRight⟩
  | error e s' =>
      rw [hRun] at hLeft hRight
      exact ⟨hLeft, hRight⟩

end Results

------------------------------------------------------------
-- Primitive Actions
------------------------------------------------------------

section Primitive

variable {s : σ} {E : ε → Prop}

@[simp] theorem ensures_pure
    {a : α}
    {Q : α → σ → Prop} :
    Ensures (pure a) s E Q ↔ Q a s :=
  Iff.rfl

@[simp] theorem ensures_get
    {Q : σ → σ → Prop} :
    Ensures (get : EStateM ε σ σ) s E Q ↔ Q s s :=
  Iff.rfl

@[simp] theorem ensures_modify
    {f : σ → σ}
    {Q : PUnit → σ → Prop} :
    Ensures (modify f : EStateM ε σ PUnit) s E Q ↔ Q ⟨⟩ (f s) :=
  Iff.rfl

@[simp] theorem ensures_throw
    {e : ε}
    {Q : α → σ → Prop} :
    Ensures (throw e : EStateM ε σ α) s E Q ↔ E e :=
  Iff.rfl

end Primitive

------------------------------------------------------------
-- Sequences
------------------------------------------------------------

section Sequences

variable {s : σ} {E : ε → Prop}
variable {action : EStateM ε σ α} {next : α → EStateM ε σ β}

/- An action goes on with the result of one that ended well. -/
theorem bind_of_ok
    {a : α}
    {s' : σ}
    (hRun : action s = .ok a s') :
    (action >>= next) s = next a s' := by
  simp only [bind, EStateM.bind, hRun]

theorem bind_of_error
    {e : ε}
    {s' : σ}
    (hRun : action s = .error e s') :
    (action >>= next) s = .error e s' := by
  simp only [bind, EStateM.bind, hRun]

/- One action after another. -/
@[simp] theorem ensures_bind
    {Q : β → σ → Prop} :
    Ensures (action >>= next) s E Q ↔
      Ensures action s E (fun a s' => Ensures (next a) s' E Q) := by
  unfold Ensures
  simp only [bind, EStateM.bind]
  cases action s <;> rfl

/- Two actions in a row, through a condition between them. -/
theorem Ensures.bind
    {R : α → σ → Prop}
    {Q : β → σ → Prop}
    (hAction : Ensures action s E R)
    (hNext : ∀ a s', R a s' → Ensures (next a) s' E Q) :
    Ensures (action >>= next) s E Q :=
  ensures_bind.mpr (hAction.weaken hNext)

/-
  An action for each element of a list. The invariant speaks of
  the elements that are still to come.
-/
theorem Ensures.forM
    {f : α → EStateM ε σ PUnit}
    (I : List α → σ → Prop)
    {l : List α}
    (hStart : I l s)
    (hStep :
      ∀ a as s', I (a :: as) s' →
        Ensures (f a) s' E (fun _ s'' => I as s'')) :
    Ensures (l.forM f) s E (fun _ s' => I [] s') := by
  induction l generalizing s with
  | nil => exact hStart
  | cons a as ih =>
      refine (hStep a as s hStart).bind ?_
      intro _ s' hRest
      exact ih hRest

/-
  An action for each element of a list. The invariant speaks of
  the elements that are done.
-/
theorem Ensures.forM_done
    {f : α → EStateM ε σ PUnit}
    (I : List α → σ → Prop)
    {l : List α}
    (hStart : I [] s)
    (hStep :
      ∀ done a rest s', done ++ a :: rest = l → I done s' →
        Ensures (f a) s' E (fun _ s'' => I (done ++ [a]) s'')) :
    Ensures (l.forM f) s E (fun _ s' => I l s') := by
  have hRun :
      Ensures (l.forM f) s E
        (fun _ s' => ∃ done, done ++ [] = l ∧ I done s') := by
    apply Ensures.forM (fun rest s' => ∃ done, done ++ rest = l ∧ I done s')
    · exact ⟨[], rfl, hStart⟩
    · intro a rest s' hDone
      rcases hDone with ⟨done, hSplit, hI⟩
      refine (hStep done a rest s' hSplit hI).weaken ?_
      intro _ s'' hI'
      exact ⟨done ++ [a], by rw [List.append_assoc]; exact hSplit, hI'⟩
  refine hRun.weaken ?_
  intro _ s' hDone
  rcases hDone with ⟨done, hSplit, hI⟩
  rw [List.append_nil] at hSplit
  exact hSplit ▸ hI

end Sequences

------------------------------------------------------------
-- Results without State
------------------------------------------------------------

/- A result is in `Q`, or it is an error in `E`. -/
def Yields
    (result : Except ε α)
    (E : ε → Prop)
    (Q : α → Prop) : Prop :=
  match result with
  | .ok a => Q a
  | .error e => E e

section Yields

variable {result : Except ε α} {E : ε → Prop} {Q : α → Prop}

theorem Yields.weaken
    {Q' : α → Prop}
    (hYields : Yields result E Q)
    (hQ : ∀ a, Q a → Q' a) :
    Yields result E Q' := by
  cases result with
  | ok a => exact hQ a hYields
  | error e => exact hYields

/- One result after another. -/
theorem Yields.bind
    {next : α → Except ε β}
    {Q' : β → Prop}
    (hYields : Yields result E Q)
    (hNext : ∀ a, Q a → Yields (next a) E Q') :
    Yields (result >>= next) E Q' := by
  cases result with
  | ok a => exact hNext a hYields
  | error e => exact hYields

/- A result for each element of a list. -/
theorem Yields.mapM
    {f : β → Except ε α}
    {R : β → α → Prop}
    {l : List β}
    (hEach : ∀ b ∈ l, Yields (f b) E (R b)) :
    Yields (l.mapM f) E (fun as => List.Forall₂ R l as) := by
  induction l with
  | nil => exact .nil
  | cons b l ih =>
      rw [List.mapM_cons]
      refine (hEach b List.mem_cons_self).bind ?_
      intro a hA
      have hRest := ih (fun c hC => hEach c (List.mem_cons_of_mem _ hC))
      refine hRest.bind ?_
      intro as hAs
      exact .cons hA hAs

end Yields

end Systolic
