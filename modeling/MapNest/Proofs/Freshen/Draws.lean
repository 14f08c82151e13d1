import MapNest.Analysis.Bound
import MapNest.Freshen
import MapNest.Proofs.Attempt

/-!
# `MapNest.Proofs.Freshen.Draws`: how many names are drawn

Some computations do nothing that can go wrong but draw names, and the number of names they draw is
known beforehand. `Draws` says so: the computation succeeds if there are tags enough, and if not it
ends with an overflow, all tags used up. A walk that gives fresh names draws one for each binder
(`Exp.draws`), whatever the syntax is like.

Nothing is asked of the supply at the start. If its next tag is beyond the last one, drawing a name
fails and leaves it there, so the tags never go back (`Draws.next_le`).
-/

set_option autoImplicit false

namespace MapNest

section Draws

variable {σ α β : Type} {next : σ → Nat}

/-- A computation draws a number of names, if there are tags enough. `next` is the tag of the next
name. -/
def Draws (next : σ → Nat) (act : EStateM Failure σ α) (k : Nat) : Prop :=
  ∀ s, ((k = 0 ∨ next s + k ≤ Supply.lastTag) ∧
      ∃ a s', act s = .ok a s' ∧ next s' = next s + k) ∨
    (0 < k ∧ Supply.lastTag < next s + k ∧
      ∃ s', act s = .error .overflow s' ∧ next s' = max (next s) Supply.lastTag)

namespace Draws

/-- The two outcomes, if the next tag is within the range of tags. -/
theorem cases {act : EStateM Failure σ α} {k : Nat} (h : Draws next act k) {s : σ}
    (hs : next s ≤ Supply.lastTag) :
    (next s + k ≤ Supply.lastTag ∧ ∃ a s', act s = .ok a s' ∧ next s' = next s + k) ∨
      (Supply.lastTag < next s + k ∧
        ∃ s', act s = .error .overflow s' ∧ next s' = Supply.lastTag) := by
  rcases h s with ⟨hk, hok⟩ | ⟨-, hlt, s', herror, hnext⟩
  · exact Or.inl ⟨by omega, hok⟩
  · exact Or.inr ⟨hlt, s', herror, by omega⟩

/-- Whether it succeeds or not, a computation that draws names gives no tag back. -/
theorem next_le {act : EStateM Failure σ α} {k : Nat} (h : Draws next act k) (s : σ) :
    next s ≤ next (stateOf (act s)) := by
  rcases h s with ⟨-, a, s', hact, hnext⟩ | ⟨-, -, s', hact, hnext⟩
  · rw [hact]
    show next s ≤ next s'
    omega
  · rw [hact]
    show next s ≤ next s'
    omega

/-- Drawing names fails only if there are no tags left. -/
theorem eq_overflow {act : EStateM Failure σ α} {k : Nat} (h : Draws next act k) {s s' : σ}
    {e : Failure} (hact : act s = .error e s') : e = .overflow := by
  rcases h s with ⟨-, a, s₁, hok, -⟩ | ⟨-, -, s₁, herror, -⟩
  · rw [hok] at hact
    cases hact
  · rw [herror] at hact
    cases hact
    rfl

/-- A computation that only gives a result draws nothing. -/
theorem pure {a : α} : Draws next (Pure.pure a) 0 := fun s =>
  Or.inl ⟨Or.inl rfl, a, s, rfl, rfl⟩

/-- Two computations one after the other draw what both of them draw. -/
theorem bind {act : EStateM Failure σ α} {f : α → EStateM Failure σ β} {k j : Nat}
    (h : Draws next act k) (hf : ∀ a, Draws next (f a) j) : Draws next (act >>= f) (k + j) := by
  intro s
  show _ ∨ _ ∧ _ ∧ ∃ s', EStateM.bind act f s = _ ∧ _
  rcases h s with ⟨hk, a, s₁, hact, hnext⟩ | ⟨hpos, hlt, s₁, hact, hnext⟩
  · -- The first part succeeds, so it is up to the second one.
    have hbind : EStateM.bind act f s = f a s₁ := by rw [EStateM.bind, hact]
    rw [hbind]
    rcases hf a s₁ with ⟨hj, b, s', hb, hnext'⟩ | ⟨hpos, hlt, s', hb, hnext'⟩
    · refine Or.inl ⟨by omega, b, s', ?_, by omega⟩
      exact hbind.trans hb
    · exact Or.inr ⟨by omega, by omega, s', hb, by omega⟩
  · exact Or.inr ⟨by omega, by omega, s₁, by rw [EStateM.bind, hact], hnext⟩

/-- What is done with a result without drawing names does not count. -/
theorem map {act : EStateM Failure σ α} {f : α → β} {k : Nat} (h : Draws next act k) :
    Draws next (act >>= fun a => Pure.pure (f a)) k :=
  h.bind fun _ => .pure

/-- One name for each member of a list. -/
theorem mapM {f : α → EStateM Failure σ β} (hf : ∀ a, Draws next (f a) 1) (l : List α) :
    Draws next (l.mapM f) l.length := by
  induction l with
  | nil => exact .pure
  | cons a l ih =>
    rw [List.mapM_cons, List.length_cons, Nat.add_comm]
    exact (hf a).bind fun _ => ih.map

end Draws

end Draws

/-- A fresh name is one name. -/
theorem Supply.fresh_draws {base : String} : Draws Supply.next (fresh base) 1 := by
  intro s
  by_cases h : s.next < lastTag
  · exact Or.inl ⟨Or.inr h, _, _, fresh_eq_ok_iff.2 ⟨h, rfl, rfl⟩, rfl⟩
  · exact Or.inr ⟨Nat.one_pos, by omega, s, fresh_eq_error_iff.2 ⟨h, rfl, rfl⟩, by omega⟩

/-- The tag of the next name that a walk draws. -/
def Freshening.next (st : Freshening) : Nat := st.supply.next

/-! ### Steps of the walk -/

namespace FreshenM

/-- Looking at the replacements so far draws nothing. -/
theorem read_draws {α : Type} {f : Subst → FreshenM α} {k : Nat}
    (h : ∀ τ, Draws Freshening.next (f τ) k) : Draws Freshening.next (subst >>= f) k :=
  fun st => h st.subst st

/-- A name in place of another is one name. -/
theorem replace_draws {n : Name} : Draws Freshening.next (replace n) 1 := by
  intro st
  rcases Supply.fresh_draws st.supply with ⟨hk, m, supply, hfresh, hnext⟩ |
    ⟨hpos, hlt, supply, hfresh, hnext⟩
  · refine Or.inl ⟨hk, m, ⟨(n, m) :: st.subst, supply⟩, ?_, hnext⟩
    rw [replace, Supply.freshLike, hfresh]
  · refine Or.inr ⟨hpos, hlt, ⟨st.subst, supply⟩, ?_, hnext⟩
    rw [replace, Supply.freshLike, hfresh]

/-- A binder draws one name. The replacements before only change its type. -/
theorem binder_draws {b : Binder} : Draws Freshening.next (binder b) 1 :=
  read_draws fun _ => replace_draws.map

/-- An axis draws one name, for its index. -/
theorem axis_draws {a : Axis} : Draws Freshening.next (axis a) 1 :=
  read_draws fun _ => replace_draws.map

/-- A kernel input draws one name, for its parameter. -/
theorem input_draws {i : KernelInput × Name} : Draws Freshening.next (input i) 1 :=
  read_draws fun _ => binder_draws.map

/-- Binders draw a name each. -/
theorem binders_draws {l : List Binder} : Draws Freshening.next (binders l) l.length :=
  .mapM (fun _ => binder_draws) l

/-- A counting loop draws a name for its index. A condition is carried, and draws none. -/
theorem form_draws {f : LoopForm} : Draws Freshening.next (form f) f.binders.length := by
  cases f with
  | forBelow index bound => exact read_draws fun _ => replace_draws.map
  | whileTrue cond => exact read_draws fun _ => .pure

end FreshenM

/-! ### The whole walk -/

open FreshenM

/-- A loop draws its carried values, its index and what its body draws. -/
theorem Loop.draws_of_body {l : Loop}
    (hbody : Draws Freshening.next l.body.freshen l.body.binders.length) :
    Draws Freshening.next l.freshen l.binders.length := by
  obtain ⟨ret, merge, form, body⟩ := l
  have hcount : (Loop.binders ⟨ret, merge, form, body⟩).length
      = (merge.map (·.param)).length + (form.binders.length + body.binders.length) := by
    simp [binders]
  rw [hcount]
  exact read_draws fun _ => binders_draws.bind fun _ => form_draws.bind fun _ =>
    read_draws fun _ => hbody.map

/-- A function draws its index, its parameters and what its body draws. -/
theorem Lambda.draws_of_body {f : Lambda}
    (hbody : Draws Freshening.next f.body.freshen f.body.binders.length) :
    Draws Freshening.next f.freshen f.binders.length := by
  obtain ⟨index, params, body, returns⟩ := f
  have hcount : (Lambda.binders ⟨index, params, body, returns⟩).length
      = 1 + (params.length + body.binders.length) := by
    simp only [binders, List.cons_append, List.length_cons, List.length_append]
    omega
  rw [hcount]
  exact replace_draws.bind fun _ => binders_draws.bind fun _ => hbody.bind fun _ =>
    read_draws fun _ => .pure

/-- A kernel draws its indices, the thread, its parameters and what its body draws. -/
theorem Kernel.draws_of_body {k : Kernel}
    (hbody : Draws Freshening.next k.body.freshen k.body.binders.length) :
    Draws Freshening.next k.freshen k.binders.length := by
  obtain ⟨checks, width, thread, space, inputs, returns, body⟩ := k
  have hcount : (Kernel.binders ⟨checks, width, thread, space, inputs, returns, body⟩).length
      = space.length + (1 + (inputs.length + body.binders.length)) := by
    simp only [binders, List.cons_append, List.length_cons, List.length_append, List.length_map]
    omega
  rw [hcount]
  refine read_draws fun σ => ?_
  -- The arrays are read before the walk over the parameters, which draws nothing.
  have hinputs : Draws Freshening.next
      ((inputs.map fun i => (i, i.array.subst σ)).mapM input) inputs.length := by
    simpa using Draws.mapM (fun _ => input_draws) (inputs.map fun i => (i, i.array.subst σ))
  exact (Draws.mapM (fun _ => axis_draws) space).bind fun _ => replace_draws.bind fun _ =>
    hinputs.bind fun _ => hbody.bind fun _ => read_draws fun _ => .pure

mutual

/-- A walk through an expression draws a name for each of its binders. -/
theorem Exp.draws : ∀ e : Exp, Draws Freshening.next e.freshen e.binders.length
  | .op o => by
    simp only [Exp.freshen, Exp.binders]
    exact read_draws fun _ => .pure
  | .update checks source indices value => by
    simp only [Exp.freshen, Exp.binders]
    exact read_draws fun _ => .pure
  | .loop l => by
    simp only [Exp.freshen, Exp.binders]
    exact (Loop.draws l).map
  | .map checks width function arrays => by
    simp only [Exp.freshen, Exp.binders]
    exact read_draws fun _ => (Lambda.draws function).map
  | .kernel k => by
    simp only [Exp.freshen, Exp.binders]
    exact (Kernel.draws k).map

/-- A walk through a loop draws a name for each of its binders. -/
theorem Loop.draws : ∀ l : Loop, Draws Freshening.next l.freshen l.binders.length
  | ⟨_, _, _, body⟩ => Loop.draws_of_body (Body.draws body)

/-- A walk through a function draws a name for each of its binders. -/
theorem Lambda.draws : ∀ f : Lambda, Draws Freshening.next f.freshen f.binders.length
  | ⟨_, _, body, _⟩ => Lambda.draws_of_body (Body.draws body)

/-- A walk through a kernel draws a name for each of its binders. -/
theorem Kernel.draws : ∀ k : Kernel, Draws Freshening.next k.freshen k.binders.length
  | ⟨_, _, _, _, _, _, body⟩ => Kernel.draws_of_body (Body.draws body)

/-- A walk through a body draws a name for each of its binders, patterns included. -/
theorem Body.draws : ∀ b : Body, Draws Freshening.next b.freshen b.binders.length
  | .yield values => by
    simp only [Body.freshen, Body.binders]
    exact read_draws fun _ => .pure
  | .bind pattern exp rest => by
    -- The walk takes the expression first, but the pattern is listed in front of it.
    have hcount : (Body.bind pattern exp rest).binders.length
        = exp.binders.length + (pattern.length + rest.binders.length) := by
      simp only [Body.binders, List.length_append]
      omega
    rw [hcount, Body.freshen]
    exact (Exp.draws exp).bind fun _ => binders_draws.bind fun _ => (Body.draws rest).map

end

/-- Giving fresh names to what a statement binds inside draws a name for each of these. -/
theorem Stm.draws (s : Stm) : Draws Supply.next s.freshen s.exp.binders.length := by
  intro supply
  rcases Exp.draws s.exp ⟨[], supply⟩ with ⟨hk, e, st', he, hnext⟩ | ⟨hpos, hlt, st', he, hnext⟩
  · refine Or.inl ⟨hk, ⟨s.pattern, e⟩, st'.supply, ?_, hnext⟩
    rw [freshen, he]
  · refine Or.inr ⟨hpos, hlt, st'.supply, ?_, hnext⟩
    rw [freshen, he]

end MapNest
