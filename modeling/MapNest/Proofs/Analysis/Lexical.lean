import MapNest.Proofs.Analysis.Free
import MapNest.Proofs.Analysis.Mentions

/-!
# `MapNest.Proofs.Analysis.Lexical`: free names are those of lexical scope

The free names of a statement are gathered construct by construct, each taking away what it binds.
`Stm.free_lexical` says what comes out: if every name bound inside is mentioned only where its
binder reaches, the free names are just the mentions of names not bound inside.

`Lexical hidden` walks down with the names that are bound somewhere inside but not here. Each
construct reveals its own names to the parts that its binders reach: a function or a kernel to its
body, to the types of its parameters and results, and a kernel to the indices at which it reads; a
loop its carried values to their types and its body, and its index to its body alone; a statement
of a body its pattern to what comes after it. A hidden name that is mentioned is used outside its
scope.

Both inclusions are one induction over the syntax each. What is free is not hidden
(`Exp.Lexical.visible`), and what is mentioned is free or bound inside (`Exp.Lexical.complete`).
Only the second asks that loops return values that they carry, since the analysis does not look at
what a loop returns. If all names are bound once, what a body binds is hidden where the body stands,
so nothing of it is free there (`Exp.Lexical.bodies_apart`).
-/

set_option autoImplicit false

namespace MapNest

/-! ### Scopes -/

/-- The condition of a loop that has no bound. -/
def LoopForm.conditions : LoopForm → List Name
  | forBelow _ _ => []
  | whileTrue cond => [cond]

/-- A loop mentions its bound or its condition. -/
theorem LoopForm.mem_mentions {form : LoopForm} {n : Name} :
    n ∈ form.mentions ↔ .var n ∈ form.bounds ∨ n ∈ form.conditions := by
  cases form <;> simp [mentions, bounds, conditions]

mutual

/-- No hidden name is mentioned, and what is bound inside is mentioned where its binder reaches. -/
def Exp.Lexical (hidden : NameSet) : Exp → Prop
  | .op o => ∀ n ∈ o.mentions, n ∉ hidden
  | .update checks source indices value =>
    ∀ n ∈ checks ++ source :: Operand.names (indices ++ [value]), n ∉ hidden
  | .loop l => l.Lexical hidden
  | .map checks width function arrays =>
    (∀ n ∈ checks ++ Operand.names [width] ++ arrays, n ∉ hidden) ∧ function.Lexical hidden
  | .kernel k => k.Lexical hidden

/-- Initial values and the bound stand outside a loop. What it returns and its condition are among
its carried values. -/
def Loop.Lexical (hidden : NameSet) : Loop → Prop
  | ⟨ret, merge, form, body⟩ =>
    let carried := Pattern.names (merge.map (·.param))
    (∀ n ∈ Operand.names (merge.map (·.init) ++ form.bounds), n ∉ hidden) ∧
      (∀ n ∈ Pattern.dimNames (merge.map (·.param)), n ∉ hidden \ .ofList carried) ∧
      (∀ n ∈ ret ++ form.conditions, n ∈ carried) ∧
      body.Lexical (hidden \ .ofList (Pattern.names form.binders ++ carried))

/-- All of a function is in the scope of its index and its parameters. -/
def Lambda.Lexical (hidden : NameSet) : Lambda → Prop
  | ⟨index, params, body, returns⟩ =>
    let inside := hidden \ .ofList (index :: Pattern.names params)
    (∀ n ∈ Pattern.dimNames params ++ returns.flatMap Ty.dimNames, n ∉ inside) ∧
      body.Lexical inside

/-- The checks, the width, the sizes of the space and the arrays stand outside a kernel. -/
def Kernel.Lexical (hidden : NameSet) : Kernel → Prop
  | ⟨checks, width, thread, space, inputs, returns, body⟩ =>
    let params := inputs.map (·.param)
    let inside := hidden \ .ofList (thread :: space.map (·.index) ++ Pattern.names params)
    (∀ n ∈ checks ++ Operand.names (width :: space.map (·.size)) ++ inputs.map (·.array),
        n ∉ hidden) ∧
      (∀ n ∈ Operand.names (inputs.flatMap (·.indices)) ++ Pattern.dimNames params ++
        returns.flatMap (·.ty.dimNames), n ∉ inside) ∧
      body.Lexical inside

/-- A pattern is in scope in the rest of a body, but not in its own types. -/
def Body.Lexical (hidden : NameSet) : Body → Prop
  | .yield values => ∀ n ∈ Operand.names values, n ∉ hidden
  | .bind pattern exp rest =>
    exp.Lexical hidden ∧ (∀ n ∈ Pattern.dimNames pattern, n ∉ hidden) ∧
      rest.Lexical (hidden \ .ofList (Pattern.names pattern))

end

/-- Every name bound inside a statement's expression is mentioned only in the scope of its binder,
and loops return values that they carry. -/
def Stm.Lexical (s : Stm) : Prop :=
  s.exp.Lexical (.ofList (Pattern.names s.exp.binders)) ∧
    ∀ n ∈ Pattern.dimNames s.pattern, n ∉ Pattern.names s.exp.binders

variable {n : Name}

/-! ### What is free is not bound inside -/

mutual

/-- What is free in an expression is not hidden. -/
theorem Exp.Lexical.visible : ∀ {e : Exp} {hidden : NameSet},
    e.Lexical hidden → n ∈ e.free → n ∉ hidden
  | .op o, hidden, h, hn => by
    simp only [Exp.Lexical] at h
    exact h n (NameSet.mem_ofList.1 hn)
  | .update checks source indices value, hidden, h, hn => by
    simp only [Exp.Lexical] at h
    exact h n (NameSet.mem_ofList.1 hn)
  | .loop l, hidden, h, hn => by
    simp only [Exp.Lexical, Exp.free] at h hn
    exact Loop.Lexical.visible h hn
  | .map checks width function arrays, hidden, h, hn => by
    simp only [Exp.Lexical, Exp.free, NameSet.mem_union, NameSet.mem_ofList] at h hn
    rcases hn with hn | hn
    · exact Lambda.Lexical.visible h.2 hn
    · exact h.1 n hn
  | .kernel k, hidden, h, hn => by
    simp only [Exp.Lexical, Exp.free] at h hn
    exact Kernel.Lexical.visible h hn

/-- What is free in a loop is not hidden. -/
theorem Loop.Lexical.visible : ∀ {l : Loop} {hidden : NameSet},
    l.Lexical hidden → n ∈ l.free → n ∉ hidden
  | ⟨ret, merge, form, body⟩, hidden, h, hn => by
    simp only [Loop.Lexical] at h
    obtain ⟨houtside, hdims, -, hbody⟩ := h
    simp only [Loop.free, NameSet.mem_union, NameSet.mem_sdiff, NameSet.mem_ofList] at hn
    -- A size reads the carried values, the body the index as well.
    rcases hn with ⟨hinside | hdim, hown⟩ | hn
    · exact NameSet.not_mem_of_sdiff (Body.Lexical.visible hbody hinside) hown
    · exact NameSet.not_mem_of_sdiff (hdims n hdim)
        fun hcarried => hown (List.mem_append_right _ hcarried)
    · exact houtside n hn

/-- What is free in a function is not hidden. -/
theorem Lambda.Lexical.visible : ∀ {f : Lambda} {hidden : NameSet},
    f.Lexical hidden → n ∈ f.free → n ∉ hidden
  | ⟨index, params, body, returns⟩, hidden, h, hn => by
    simp only [Lambda.Lexical] at h
    simp only [Lambda.free, NameSet.mem_union, NameSet.mem_sdiff, NameSet.mem_ofList] at hn
    obtain ⟨hinside | hdim, hown⟩ := hn
    · exact NameSet.not_mem_of_sdiff (Body.Lexical.visible h.2 hinside) hown
    · exact NameSet.not_mem_of_sdiff (h.1 n hdim) hown

/-- What is free in a kernel is not hidden. -/
theorem Kernel.Lexical.visible : ∀ {k : Kernel} {hidden : NameSet},
    k.Lexical hidden → n ∈ k.free → n ∉ hidden
  | ⟨checks, width, thread, space, inputs, returns, body⟩, hidden, h, hn => by
    simp only [Kernel.Lexical] at h
    obtain ⟨houtside, hread, hbody⟩ := h
    simp only [Kernel.free, NameSet.mem_union, NameSet.mem_sdiff, NameSet.mem_ofList] at hn
    obtain ⟨hinside | hmention, hown⟩ := hn
    · exact NameSet.not_mem_of_sdiff (Body.Lexical.visible hbody hinside) hown
    · -- The mentions are listed in one row: first those outside, then those inside.
      rw [List.append_assoc, List.append_assoc, List.mem_append, ← List.append_assoc] at hmention
      rcases hmention with hmention | hmention
      · exact houtside n hmention
      · exact NameSet.not_mem_of_sdiff (hread n hmention) hown

/-- What is free in a body is not hidden. -/
theorem Body.Lexical.visible : ∀ {b : Body} {hidden : NameSet},
    b.Lexical hidden → n ∈ b.free → n ∉ hidden
  | .yield values, hidden, h, hn => by
    simp only [Body.Lexical] at h
    exact h n (NameSet.mem_ofList.1 hn)
  | .bind pattern exp rest, hidden, h, hn => by
    simp only [Body.Lexical] at h
    obtain ⟨hexp, hdims, hrest⟩ := h
    simp only [Body.free, NameSet.mem_union, NameSet.mem_sdiff, NameSet.mem_ofList] at hn
    rcases hn with (hn | hdim) | ⟨hn, hown⟩
    · exact Exp.Lexical.visible hexp hn
    · exact hdims n hdim
    · exact NameSet.not_mem_of_sdiff (Body.Lexical.visible hrest hn) hown

end

/-! ### What is mentioned is free or bound inside -/

mutual

/-- What is mentioned in an expression is free in it or bound inside it. -/
theorem Exp.Lexical.complete : ∀ {e : Exp} {hidden : NameSet},
    e.Lexical hidden → n ∈ e.mentions → n ∈ e.free ∨ n ∈ Pattern.names e.binders
  | .op o, hidden, _, hn => by
    simp only [Exp.mentions] at hn
    exact Or.inl (NameSet.mem_ofList.2 hn)
  | .update checks source indices value, hidden, _, hn => by
    simp only [Exp.mentions] at hn
    exact Or.inl (NameSet.mem_ofList.2 hn)
  | .loop l, hidden, h, hn => by
    simp only [Exp.Lexical, Exp.mentions, Exp.free, Exp.binders] at h hn ⊢
    exact Loop.Lexical.complete h hn
  | .map checks width function arrays, hidden, h, hn => by
    simp only [Exp.Lexical] at h
    simp only [Exp.mentions, Exp.free, Exp.binders, NameSet.mem_union, NameSet.mem_ofList]
      at hn ⊢
    rcases List.mem_append.1 hn with hn | hn
    · exact Or.inl (Or.inr hn)
    · exact (Lambda.Lexical.complete h.2 hn).imp_left Or.inl
  | .kernel k, hidden, h, hn => by
    simp only [Exp.Lexical, Exp.mentions, Exp.free, Exp.binders] at h hn ⊢
    exact Kernel.Lexical.complete h hn

/-- What a loop mentions is free in it or bound in it. That it returns what it carries is needed
here. -/
theorem Loop.Lexical.complete : ∀ {l : Loop} {hidden : NameSet},
    l.Lexical hidden → n ∈ l.mentions → n ∈ l.free ∨ n ∈ Pattern.names l.binders
  | ⟨ret, merge, form, body⟩, hidden, h, hn => by
    simp only [Loop.Lexical] at h
    obtain ⟨-, -, hcarried, hbody⟩ := h
    simp only [Loop.mentions, List.mem_append, LoopForm.mem_mentions] at hn
    simp only [Loop.free, Loop.binders, Pattern.names_append, NameSet.mem_union, NameSet.mem_sdiff,
      NameSet.mem_ofList, List.mem_append, Operand.mem_names] at hcarried hn ⊢
    rcases hn with (((hinit | hdim) | hbound | hcond) | hret) | hinside
    · exact Or.inl (Or.inr (Or.inl hinit))
    · grind
    · exact Or.inl (Or.inr (Or.inr hbound))
    · exact Or.inr (Or.inl (Or.inl (hcarried n (Or.inr hcond))))
    · exact Or.inr (Or.inl (Or.inl (hcarried n (Or.inl hret))))
    · have := Body.Lexical.complete hbody hinside
      grind

/-- What a function mentions is free in it or bound in it. -/
theorem Lambda.Lexical.complete : ∀ {f : Lambda} {hidden : NameSet},
    f.Lexical hidden → n ∈ f.mentions → n ∈ f.free ∨ n ∈ Pattern.names f.binders
  | ⟨index, params, body, returns⟩, hidden, h, hn => by
    simp only [Lambda.Lexical] at h
    have hinside : n ∈ body.mentions → n ∈ body.free ∨ n ∈ Pattern.names body.binders :=
      Body.Lexical.complete h.2
    rw [Lambda.mem_free, Lambda.mem_names_binders]
    simp only [Lambda.mentions, List.mem_append] at hn
    grind

/-- What a kernel mentions is free in it or bound in it. -/
theorem Kernel.Lexical.complete : ∀ {k : Kernel} {hidden : NameSet},
    k.Lexical hidden → n ∈ k.mentions → n ∈ k.free ∨ n ∈ Pattern.names k.binders
  | ⟨checks, width, thread, space, inputs, returns, body⟩, hidden, h, hn => by
    simp only [Kernel.Lexical] at h
    have hinside : n ∈ body.mentions → n ∈ body.free ∨ n ∈ Pattern.names body.binders :=
      Body.Lexical.complete h.2.2
    rw [Kernel.mem_free, Kernel.mem_names_binders]
    rw [Kernel.mem_mentions] at hn
    grind

/-- What a body mentions is free in it or bound in it. -/
theorem Body.Lexical.complete : ∀ {b : Body} {hidden : NameSet},
    b.Lexical hidden → n ∈ b.mentions → n ∈ b.free ∨ n ∈ Pattern.names b.binders
  | .yield values, hidden, _, hn => by
    simp only [Body.mentions] at hn
    exact Or.inl (NameSet.mem_ofList.2 hn)
  | .bind pattern exp rest, hidden, h, hn => by
    simp only [Body.Lexical] at h
    obtain ⟨hexp, -, hrest⟩ := h
    simp only [Body.mentions, List.mem_append] at hn
    simp only [Body.free, Body.binders, Pattern.names_append, NameSet.mem_union, NameSet.mem_sdiff,
      NameSet.mem_ofList, List.mem_append]
    rcases hn with (hn | hdim) | hn
    · have := Exp.Lexical.complete hexp hn
      grind
    · exact Or.inl (Or.inl (Or.inr hdim))
    · have := Body.Lexical.complete hrest hn
      grind

end

/-! ### Bodies inside -/

mutual

/-- The bodies that an expression holds, at any depth. -/
def Exp.bodies : Exp → List Body
  | .op _ => []
  | .update _ _ _ _ => []
  | .loop l => l.bodies
  | .map _ _ function _ => function.bodies
  | .kernel k => k.bodies

/-- The body of a loop and those inside it. -/
def Loop.bodies : Loop → List Body
  | ⟨_, _, _, body⟩ => body :: body.bodies

/-- The body of a function and those inside it. -/
def Lambda.bodies : Lambda → List Body
  | ⟨_, _, body, _⟩ => body :: body.bodies

/-- The body of a kernel and those inside it. -/
def Kernel.bodies : Kernel → List Body
  | ⟨_, _, _, _, _, _, body⟩ => body :: body.bodies

/-- The bodies that the statements of a body hold, at any depth. -/
def Body.bodies : Body → List Body
  | .yield _ => []
  | .bind _ exp rest => exp.bodies ++ rest.bodies

end

/-- Some binders are distinct, and their names are all hidden. -/
structure NameSet.Hides (hidden : NameSet) (binders : List Binder) : Prop where
  nodup : (Pattern.names binders).Nodup
  mem : ∀ n ∈ Pattern.names binders, n ∈ hidden

namespace NameSet.Hides

variable {hidden : NameSet} {xs ys : List Binder}

/-- What hides two lists of binders hides the first. -/
theorem left (h : hidden.Hides (xs ++ ys)) : hidden.Hides xs where
  nodup := (List.nodup_append.1 (Pattern.names_append ▸ h.nodup)).1
  mem n hn := h.mem n (Pattern.names_append ▸ List.mem_append_left _ hn)

/-- What hides two lists of binders hides the second. -/
theorem right (h : hidden.Hides (xs ++ ys)) : hidden.Hides ys where
  nodup := (List.nodup_append.1 (Pattern.names_append ▸ h.nodup)).2.1
  mem n hn := h.mem n (Pattern.names_append ▸ List.mem_append_right _ hn)

/-- Once the first binders are revealed, the others are hidden still. -/
theorem reveal (h : hidden.Hides (xs ++ ys)) (own : List Name)
    (hown : ∀ n ∈ own, n ∈ Pattern.names xs) : (hidden \ .ofList own).Hides ys where
  nodup := h.right.nodup
  mem n hn := by
    have hapart := (List.nodup_append.1 (Pattern.names_append ▸ h.nodup)).2.2
    rw [NameSet.mem_sdiff, NameSet.mem_ofList]
    exact ⟨h.right.mem n hn, fun hmem => hapart n (hown n hmem) n hn rfl⟩

end NameSet.Hides

/-- No name is free in a body and bound inside it. -/
def Body.Apart (b : Body) : Prop := ∀ n ∈ b.free, n ∉ Pattern.names b.binders

/-- Nothing that is free in such a body is bound by its statements. -/
theorem Body.Apart.not_mem_bound {b : Body} (h : b.Apart) (hn : n ∈ b.free) :
    n ∉ Stm.bound b.stms := by
  intro hbound
  obtain ⟨s, hs, c, hc, rfl⟩ := Stm.mem_bound.1 hbound
  refine h _ hn (Pattern.mem_names.2 ⟨c, ?_, rfl⟩)
  rw [← Body.ofStms_stms_result b, Body.binders_ofStms]
  exact List.mem_flatMap.2 ⟨s, hs, List.mem_append_left _ hc⟩

/-- If all that a body binds is hidden where the body stands, nothing of it is free there. -/
theorem Body.Lexical.apart {b : Body} {hidden : NameSet} (h : b.Lexical hidden)
    (hhides : ∀ n ∈ Pattern.names b.binders, n ∈ hidden) : b.Apart :=
  fun n hn hbound => h.visible hn (hhides n hbound)

mutual

/-- What a body inside an expression binds is not free in it, if binders are distinct and hidden. -/
theorem Exp.Lexical.bodies_apart : ∀ {e : Exp} {hidden : NameSet},
    e.Lexical hidden → hidden.Hides e.binders → ∀ b ∈ e.bodies, b.Apart
  | .op o, hidden, _, _ => by simp [Exp.bodies]
  | .update checks source indices value, hidden, _, _ => by simp [Exp.bodies]
  | .loop l, hidden, h, hhides => by
    simp only [Exp.Lexical, Exp.binders, Exp.bodies] at h hhides ⊢
    exact Loop.Lexical.bodies_apart h hhides
  | .map checks width function arrays, hidden, h, hhides => by
    simp only [Exp.Lexical, Exp.binders, Exp.bodies] at h hhides ⊢
    exact Lambda.Lexical.bodies_apart h.2 hhides
  | .kernel k, hidden, h, hhides => by
    simp only [Exp.Lexical, Exp.binders, Exp.bodies] at h hhides ⊢
    exact Kernel.Lexical.bodies_apart h hhides

/-- No body in a loop has free what it binds. -/
theorem Loop.Lexical.bodies_apart : ∀ {l : Loop} {hidden : NameSet},
    l.Lexical hidden → hidden.Hides l.binders → ∀ b ∈ l.bodies, b.Apart
  | ⟨ret, merge, form, body⟩, hidden, h, hhides => by
    simp only [Loop.Lexical, Loop.binders, Loop.bodies, List.forall_mem_cons] at h hhides ⊢
    obtain ⟨-, -, -, hbody⟩ := h
    have hinside := hhides.reveal
      (Pattern.names form.binders ++ Pattern.names (merge.map (·.param))) fun n hn => by
        rw [Pattern.names_append]
        exact List.mem_append.2 (List.mem_append.1 hn).symm
    exact ⟨hbody.apart hinside.mem, Body.Lexical.bodies_apart hbody hinside⟩

/-- No body in a function has free what it binds. -/
theorem Lambda.Lexical.bodies_apart : ∀ {f : Lambda} {hidden : NameSet},
    f.Lexical hidden → hidden.Hides f.binders → ∀ b ∈ f.bodies, b.Apart
  | ⟨index, params, body, returns⟩, hidden, h, hhides => by
    simp only [Lambda.Lexical, Lambda.binders, Lambda.bodies, List.forall_mem_cons] at h hhides ⊢
    have hinside := hhides.reveal _ fun n hn => hn
    exact ⟨h.2.apart hinside.mem, Body.Lexical.bodies_apart h.2 hinside⟩

/-- No body in a kernel has free what it binds. -/
theorem Kernel.Lexical.bodies_apart : ∀ {k : Kernel} {hidden : NameSet},
    k.Lexical hidden → hidden.Hides k.binders → ∀ b ∈ k.bodies, b.Apart
  | ⟨checks, width, thread, space, inputs, returns, body⟩, hidden, h, hhides => by
    simp only [Kernel.Lexical, Kernel.binders, Kernel.bodies, List.forall_mem_cons] at h hhides ⊢
    obtain ⟨-, -, hbody⟩ := h
    have hinside := hhides.reveal
      (thread :: space.map (·.index) ++ Pattern.names (inputs.map (·.param))) fun n hn => by
        simpa [Pattern.names, Function.comp_def] using hn
    exact ⟨hbody.apart hinside.mem, Body.Lexical.bodies_apart hbody hinside⟩

/-- No body that the statements of a body hold has free what it binds. -/
theorem Body.Lexical.bodies_apart : ∀ {b : Body} {hidden : NameSet},
    b.Lexical hidden → hidden.Hides b.binders → ∀ c ∈ b.bodies, c.Apart
  | .yield values, hidden, _, _ => by simp [Body.bodies]
  | .bind pattern exp rest, hidden, h, hhides => by
    simp only [Body.Lexical, Body.binders, Body.bodies, List.forall_mem_append] at h hhides ⊢
    obtain ⟨hexp, -, hrest⟩ := h
    exact ⟨Exp.Lexical.bodies_apart hexp hhides.left.right,
      Body.Lexical.bodies_apart hrest (hhides.reveal _ fun n hn => by
        rw [Pattern.names_append]
        exact List.mem_append_left _ hn)⟩

end

/-- If each name bound inside a statement is mentioned in the scope of its binder only, the free
names are the mentions of names not bound inside. So no name that the statements of a body bind is
free in the body, for bodies at any depth of a statement and for those that stand alone. -/
theorem Stm.free_lexical :
    (∀ s : Stm, s.Lexical →
      (∀ n, n ∈ s.free ↔ n ∈ s.mentions ∧ n ∉ Pattern.names s.exp.binders) ∧
      ((Pattern.names s.exp.binders).Nodup →
        ∀ b ∈ s.exp.bodies, ∀ n ∈ b.free, n ∉ Stm.bound b.stms)) ∧
    ∀ b : Body, b.Lexical (.ofList (Pattern.names b.binders)) →
      ∀ n ∈ b.free, n ∉ Stm.bound b.stms := by
  refine ⟨fun s h => ⟨fun n => ?_, fun hnodup b hb n hn => ?_⟩, fun b h n hn => ?_⟩
  · rw [mem_free, mentions, List.mem_append]
    constructor
    · rintro (hexp | hdim)
      · refine ⟨Or.inl (Exp.mem_mentions_of_mem_free hexp), fun hbound => ?_⟩
        exact h.1.visible hexp (NameSet.mem_ofList.2 hbound)
      · exact ⟨Or.inr hdim, h.2 n hdim⟩
    · rintro ⟨hexp | hdim, hbound⟩
      · exact Or.inl ((h.1.complete hexp).resolve_right hbound)
      · exact Or.inr hdim
  · have hhides : (NameSet.ofList (Pattern.names s.exp.binders)).Hides s.exp.binders :=
      ⟨hnodup, fun n hn => NameSet.mem_ofList.2 hn⟩
    exact (h.1.bodies_apart hhides b hb).not_mem_bound hn
  · exact (h.apart fun n hn => NameSet.mem_ofList.2 hn).not_mem_bound hn

/-! A kernel that adds a number to each element of a row, over and over:

    ys = kernel (i < n) (x <- xs[i]):
      r = loop acc = x for j < m:
        us = map k < m (e <- acc):
          v = e + c
      r
-/

namespace Repeated

/-- Rows of some length. -/
def row : Ty := .array .i32 [.var ⟨"m", 2⟩] false

/-- One addition to all elements of a row. -/
def addition : Exp :=
  .map [] (.var ⟨"m", 2⟩)
    ⟨⟨"k", 10⟩, [⟨⟨"e", 11⟩, .scalar .i32⟩],
      .ofStms [.arith .add ⟨"v", 12⟩ .i32 (.var ⟨"e", 11⟩) (.var ⟨"c", 3⟩)] [.var ⟨"v", 12⟩],
      [.scalar .i32]⟩
    [⟨"acc", 8⟩]

/-- The loop at a point. -/
def additions : Loop :=
  ⟨[⟨"acc", 8⟩], [⟨⟨⟨"acc", 8⟩, row⟩, .var ⟨"x", 7⟩⟩], .forBelow ⟨"j", 9⟩ (.var ⟨"m", 2⟩),
    .ofStms [⟨[⟨⟨"us", 13⟩, row⟩], addition⟩] [.var ⟨"us", 13⟩]⟩

/-- The kernel. -/
def stm : Stm :=
  ⟨[⟨⟨"ys", 4⟩, .array .i32 [.var ⟨"n", 1⟩, .var ⟨"m", 2⟩] false⟩],
    .kernel ⟨[], .var ⟨"n", 1⟩, ⟨"t", 6⟩, [⟨⟨"i", 5⟩, .var ⟨"n", 1⟩⟩],
      [⟨⟨⟨"x", 7⟩, row⟩, ⟨"xs", 0⟩, [.var ⟨"i", 5⟩]⟩], [⟨row, [0]⟩],
      .ofStms [⟨[⟨⟨"r", 14⟩, row⟩], .loop additions⟩] [.var ⟨"r", 14⟩]⟩⟩

/-- Every name of the statement is mentioned where its binder reaches. -/
theorem stm_lexical : stm.Lexical := by
  simp only [Stm.Lexical, stm, additions, addition, Stm.arith, Stm.ofOp, Body.ofStms, List.foldr,
    Exp.Lexical, Lambda.Lexical, Loop.Lexical, Kernel.Lexical, Body.Lexical, List.map]
  decide

/-- So is every name of the additions. -/
theorem additions_lexical :
    additions.body.Lexical (.ofList (Pattern.names additions.body.binders)) := by
  simp only [additions, addition, Stm.arith, Stm.ofOp, Body.ofStms, List.foldr, Exp.Lexical,
    Lambda.Lexical, Body.Lexical]
  decide

end Repeated

example : Repeated.stm.free.toList = [⟨"c", 3⟩, ⟨"m", 2⟩, ⟨"n", 1⟩, ⟨"xs", 0⟩] := by decide

/-- For the statement and for the additions, the free names are those of lexical scope. -/
theorem free_lexical_repeated :
    (Repeated.stm.Lexical ∧ (Pattern.names Repeated.stm.exp.binders).Nodup ∧
      (∀ n, n ∈ Repeated.stm.free ↔
        n ∈ Repeated.stm.mentions ∧ n ∉ Pattern.names Repeated.stm.exp.binders) ∧
      ∀ b ∈ Repeated.stm.exp.bodies, ∀ n ∈ b.free, n ∉ Stm.bound b.stms) ∧
    Repeated.additions.body.Lexical (.ofList (Pattern.names Repeated.additions.body.binders)) ∧
      ∀ n ∈ Repeated.additions.body.free, n ∉ Stm.bound Repeated.additions.body.stms := by
  have hnodup : (Pattern.names Repeated.stm.exp.binders).Nodup := by decide
  obtain ⟨hstm, hbody⟩ := Stm.free_lexical
  obtain ⟨hfree, hbodies⟩ := hstm Repeated.stm Repeated.stm_lexical
  exact ⟨⟨Repeated.stm_lexical, hnodup, hfree, hbodies hnodup⟩, Repeated.additions_lexical,
    hbody _ Repeated.additions_lexical⟩

end MapNest
