import MapNest.Analysis.Bound

/-!
# `MapNest.Proofs.Analysis.Parts`: an expression and the expressions inside it

Only loops, maps and kernels hold other expressions, and all of them hold these in the statements of
one body (`Exp.inside`). So what is to be shown of every expression has one induction: it is shown
of an expression when it is known of the expressions of the statements directly inside
(`Exp.induction`).

`Exp.parts` lists an expression and all expressions inside it, at any depth. `Exp.mem_binders` says
what an expression binds in terms of its parts: each binds its parameters, its indices and the
patterns of the statements directly inside.
-/

set_option autoImplicit false

namespace MapNest

variable {n : Name} {b : Binder} {e p : Exp}

/-! ### One construct at a time -/

namespace Exp

/-- The statements directly inside an expression. -/
def inside : Exp → List Stm
  | .op _ => []
  | .update _ _ _ _ => []
  | .loop l => l.body.stms
  | .map _ _ function _ => function.body.stms
  | .kernel k => k.body.stms

/-- The parameters that an expression itself binds: the carried values of a loop, the parameters of
a function or of a kernel. -/
def params : Exp → List Binder
  | .op _ => []
  | .update _ _ _ _ => []
  | .loop l => l.merge.map (·.param)
  | .map _ _ function _ => function.params
  | .kernel k => k.inputs.map (·.param)

/-- The indices that an expression itself binds. -/
def indices : Exp → List Name
  | .op _ => []
  | .update _ _ _ _ => []
  | .loop l => Pattern.names l.form.binders
  | .map _ _ function _ => [function.index]
  | .kernel k => k.thread :: k.space.map (·.index)

end Exp

/-- A body binds what its statements bind. -/
theorem Body.mem_binders : ∀ {body : Body}, b ∈ body.binders ↔ ∃ s ∈ body.stms, b ∈ s.binders
  | .yield values => by simp [binders, stms]
  | .bind pattern exp rest => by
    have ih : b ∈ rest.binders ↔ ∃ s ∈ rest.stms, b ∈ s.binders := Body.mem_binders
    simp only [binders, stms, List.mem_append, ih, List.mem_cons, exists_eq_or_imp, Stm.binders]

/-- What the form of a loop binds is an index, which has the type of indices. -/
theorem LoopForm.mem_binders {form : LoopForm} :
    b ∈ form.binders ↔ ∃ n ∈ Pattern.names form.binders, b = ⟨n, .index⟩ := by
  cases form <;> simp [binders, Pattern.names]

/-- What an expression binds is one of its parameters, one of its indices, or bound by a statement
directly inside. -/
theorem Exp.mem_binders_iff :
    b ∈ e.binders ↔ b ∈ e.params ∨ (∃ n ∈ e.indices, b = ⟨n, .index⟩) ∨
      ∃ s ∈ e.inside, b ∈ s.binders := by
  cases e with
  | op o => simp [binders, params, indices, inside]
  | update checks source indices value => simp [binders, params, Exp.indices, inside]
  | loop l =>
    obtain ⟨ret, merge, form, body⟩ := l
    simp only [binders, Loop.binders, params, indices, inside, List.mem_append, Body.mem_binders,
      LoopForm.mem_binders, or_assoc]
  | map checks width function arrays =>
    obtain ⟨index, params, body, returns⟩ := function
    simp only [binders, Lambda.binders, Exp.params, indices, inside, List.mem_append,
      List.mem_cons, Body.mem_binders, List.not_mem_nil, or_false, exists_eq_left]
    grind
  | kernel k =>
    obtain ⟨checks, width, thread, space, inputs, returns, body⟩ := k
    simp only [binders, Kernel.binders, params, indices, inside, List.mem_append, List.mem_cons,
      Body.mem_binders, List.mem_map, exists_eq_or_imp]
    grind

/-- A name is bound in an expression as one of its parameters, as one of its indices, or by a
statement directly inside. -/
theorem Exp.mem_names_binders_iff :
    n ∈ Pattern.names e.binders ↔ n ∈ Pattern.names e.params ∨ n ∈ e.indices ∨
      ∃ s ∈ e.inside, n ∈ Pattern.names s.binders := by
  simp only [Pattern.mem_names, mem_binders_iff]
  grind

/-! ### Induction -/

mutual

/-- What holds of an expression whenever it holds of those directly inside holds of all. -/
theorem Exp.induction {P : Exp → Prop} (within : ∀ e : Exp, (∀ s ∈ e.inside, P s.exp) → P e) :
    ∀ e : Exp, P e
  | .op o => within _ (by simp [Exp.inside])
  | .update checks source indices value => within _ (by simp [Exp.inside])
  | .loop ⟨_, _, _, body⟩ => within _ (Body.induction within body)
  | .map _ _ ⟨_, _, body, _⟩ _ => within _ (Body.induction within body)
  | .kernel ⟨_, _, _, _, _, _, body⟩ => within _ (Body.induction within body)

/-- What holds of an expression whenever it holds of those directly inside holds of those in a body.
-/
theorem Body.induction {P : Exp → Prop} (within : ∀ e : Exp, (∀ s ∈ e.inside, P s.exp) → P e) :
    ∀ body : Body, ∀ s ∈ body.stms, P s.exp
  | .yield _ => by simp [Body.stms]
  | .bind _ exp rest =>
    List.forall_mem_cons.2 ⟨Exp.induction within exp, Body.induction within rest⟩

end

/-! ### All parts -/

mutual

/-- An expression and all expressions inside it. -/
def Exp.parts : Exp → List Exp
  | .op o => [.op o]
  | .update checks source indices value => [.update checks source indices value]
  | .loop l => .loop l :: l.parts
  | .map checks width function arrays => .map checks width function arrays :: function.parts
  | .kernel k => .kernel k :: k.parts

/-- The expressions inside a loop. -/
def Loop.parts : Loop → List Exp
  | ⟨_, _, _, body⟩ => body.parts

/-- The expressions inside a function. -/
def Lambda.parts : Lambda → List Exp
  | ⟨_, _, body, _⟩ => body.parts

/-- The expressions inside a kernel. -/
def Kernel.parts : Kernel → List Exp
  | ⟨_, _, _, _, _, _, body⟩ => body.parts

/-- The expressions of a body. -/
def Body.parts : Body → List Exp
  | .yield _ => []
  | .bind _ exp rest => exp.parts ++ rest.parts

end

/-- The expressions of a body are those of its statements, in their order. -/
theorem Body.parts_eq : ∀ {body : Body}, body.parts = body.stms.flatMap fun s => s.exp.parts
  | .yield _ => by simp [parts, stms]
  | .bind pattern exp rest => by
    have ih : rest.parts = rest.stms.flatMap fun s => s.exp.parts := Body.parts_eq
    rw [parts, stms, List.flatMap_cons, ih]

/-- The parts of an expression are itself and the parts of the expressions directly inside. -/
theorem Exp.parts_eq : e.parts = e :: e.inside.flatMap fun s => s.exp.parts := by
  cases e with
  | op o => simp [parts, inside]
  | update checks source indices value => simp [parts, inside]
  | loop l => cases l; simp only [parts, Loop.parts, inside, Body.parts_eq]
  | map checks width function arrays =>
    cases function
    simp only [parts, Lambda.parts, inside, Body.parts_eq]
  | kernel k => cases k; simp only [parts, Kernel.parts, inside, Body.parts_eq]

/-- A part of an expression is the expression or a part of one directly inside. -/
theorem Exp.mem_parts : p ∈ e.parts ↔ p = e ∨ ∃ s ∈ e.inside, p ∈ s.exp.parts := by
  rw [parts_eq, List.mem_cons, List.mem_flatMap]

/-- An expression is a part of itself. -/
theorem Exp.self_mem_parts : e ∈ e.parts := mem_parts.2 (Or.inl rfl)

/-- What an expression binds is a parameter or an index of one of its parts, or stands in the
pattern of a statement directly inside of one. -/
theorem Exp.mem_binders :
    b ∈ e.binders ↔ ∃ p ∈ e.parts, b ∈ p.params ∨ (∃ n ∈ p.indices, b = ⟨n, .index⟩) ∨
      ∃ s ∈ p.inside, b ∈ s.pattern := by
  induction e using Exp.induction with
  | within e ih =>
    rw [mem_binders_iff]
    simp only [Stm.binders, List.mem_append]
    constructor
    · rintro (hparam | hindex | ⟨s, hs, hpattern | hexp⟩)
      · exact ⟨e, self_mem_parts, Or.inl hparam⟩
      · exact ⟨e, self_mem_parts, Or.inr (Or.inl hindex)⟩
      · exact ⟨e, self_mem_parts, Or.inr (Or.inr ⟨s, hs, hpattern⟩)⟩
      · obtain ⟨p, hp, hb⟩ := (ih s hs).1 hexp
        exact ⟨p, mem_parts.2 (Or.inr ⟨s, hs, hp⟩), hb⟩
    · rintro ⟨p, hp, hb⟩
      rcases mem_parts.1 hp with rfl | ⟨s, hs, hp⟩
      · exact hb.imp_right (Or.imp_right fun ⟨s, hs, hpattern⟩ => ⟨s, hs, Or.inl hpattern⟩)
      · exact Or.inr (Or.inr ⟨s, hs, Or.inr ((ih s hs).2 ⟨p, hp, hb⟩)⟩)

end MapNest
