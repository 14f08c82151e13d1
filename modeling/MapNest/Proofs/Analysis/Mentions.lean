import MapNest.Proofs.Analysis.Free

/-!
# `MapNest.Proofs.Analysis.Mentions`: all names that a program mentions

A name occurs in a piece of syntax because the piece binds it (`Exp.binders`) or because it mentions
it. `Exp.mentions` lists the mentions, wherever they stand: as operands, checks and arrays, as sizes
in types, and as the values that a loop returns or the condition it runs on. They are listed in the
order in which the parts of an expression are evaluated, the sizes in a type at the place where its
name is bound. The free names of a piece are mentions that it does not bind, so they are among them
(`Exp.mem_mentions_of_mem_free`).
-/

set_option autoImplicit false

namespace MapNest

/-- The names that the form of a loop mentions: its bound, or its condition. -/
def LoopForm.mentions : LoopForm → List Name
  | forBelow _ bound => Operand.names [bound]
  | whileTrue cond => [cond]

mutual

/-- The names mentioned in an expression. -/
def Exp.mentions : Exp → List Name
  | .op o => o.mentions
  | .update checks source indices value => checks ++ source :: Operand.names (indices ++ [value])
  | .loop l => l.mentions
  | .map checks width function arrays =>
    checks ++ Operand.names [width] ++ arrays ++ function.mentions
  | .kernel k => k.mentions

/-- The names mentioned in a loop. -/
def Loop.mentions : Loop → List Name
  | ⟨ret, merge, form, body⟩ =>
    Operand.names (merge.map (·.init)) ++ Pattern.dimNames (merge.map (·.param)) ++
      form.mentions ++ ret ++ body.mentions

/-- The names mentioned in a function. -/
def Lambda.mentions : Lambda → List Name
  | ⟨_, params, body, returns⟩ =>
    Pattern.dimNames params ++ body.mentions ++ returns.flatMap Ty.dimNames

/-- The names mentioned in a kernel. -/
def Kernel.mentions : Kernel → List Name
  | ⟨checks, width, _, space, inputs, returns, body⟩ =>
    checks ++ Operand.names [width] ++ inputs.map (·.array) ++
      space.flatMap (fun a => Operand.names [a.size]) ++
      inputs.flatMap (fun i => Operand.names i.indices ++ i.param.ty.dimNames) ++ body.mentions ++
      returns.flatMap (·.ty.dimNames)

/-- The names mentioned in a body. -/
def Body.mentions : Body → List Name
  | .yield values => Operand.names values
  | .bind pattern exp rest => exp.mentions ++ Pattern.dimNames pattern ++ rest.mentions

end

/-- The names mentioned in a statement. -/
def Stm.mentions (s : Stm) : List Name := s.exp.mentions ++ Pattern.dimNames s.pattern

/-- The names that occur in a statement. -/
def Stm.occurring (s : Stm) : List Name := Pattern.names s.binders ++ s.mentions

/-- A loop binds its carried values, what its form counts with, and what its body binds. -/
theorem Loop.binders_eq {l : Loop} :
    l.binders = l.merge.map (·.param) ++ l.form.binders ++ l.body.binders := by
  cases l
  rw [binders]

/-- A loop mentions its initial values, the sizes of its carried values, what its form and its body
mention, and the names it returns. -/
theorem Loop.mentions_eq {l : Loop} :
    l.mentions = Operand.names (l.merge.map (·.init)) ++ Pattern.dimNames (l.merge.map (·.param)) ++
      l.form.mentions ++ l.ret ++ l.body.mentions := by
  cases l
  rw [mentions]

/-- A kernel mentions what its body mentions, what it mentions around the body, and the indices of
what it reads. -/
theorem Kernel.mem_mentions {k : Kernel} {n : Name} :
    n ∈ k.mentions ↔ n ∈ k.body.mentions ∨ k.Mentions n ∨ ∃ i ∈ k.inputs, .var n ∈ i.indices := by
  obtain ⟨checks, width, thread, space, inputs, returns, body⟩ := k
  simp only [mentions, Mentions, List.mem_append, Operand.mem_names, List.mem_singleton,
    List.mem_map, List.mem_flatMap, Ty.mem_dimNames, eq_comm (a := Operand.var n)]
  grind

/-- A name that bounds the number of iterations is mentioned by the form. -/
theorem LoopForm.mem_mentions_of_mem_bounds {form : LoopForm} {n : Name}
    (h : .var n ∈ form.bounds) : n ∈ form.mentions := by
  cases form with
  | forBelow index bound => exact Operand.mem_names.2 h
  | whileTrue cond => cases h

mutual

/-- What is free in an expression is mentioned in it. -/
theorem Exp.mem_mentions_of_mem_free {n : Name} : ∀ {e : Exp}, n ∈ e.free → n ∈ e.mentions
  | .op o, h => by simpa only [Exp.free, Op.free, NameSet.mem_ofList, Exp.mentions] using h
  | .update checks source indices value, h => by
    simpa only [Exp.free, NameSet.mem_ofList, Exp.mentions] using h
  | .loop l, h => by
    simp only [Exp.free, Exp.mentions] at h ⊢
    exact Loop.mem_mentions_of_mem_free h
  | .map checks width function arrays, h => by
    simp only [Exp.free, Exp.mentions, NameSet.mem_union, NameSet.mem_ofList, List.mem_append]
      at h ⊢
    rcases h with h | h
    · exact Or.inr (Lambda.mem_mentions_of_mem_free h)
    · exact Or.inl h
  | .kernel k, h => by
    simp only [Exp.free, Exp.mentions] at h ⊢
    exact Kernel.mem_mentions_of_mem_free h

/-- What is free in a loop is mentioned in it. -/
theorem Loop.mem_mentions_of_mem_free {n : Name} : ∀ {l : Loop}, n ∈ l.free → n ∈ l.mentions
  | ⟨ret, merge, form, body⟩, h => by
    simp only [Loop.free, Loop.mentions, NameSet.mem_union, NameSet.mem_sdiff, NameSet.mem_ofList,
      Operand.mem_names, List.mem_append] at h ⊢
    rcases h with ⟨hbody | hdims, -⟩ | hinit | hbound
    · exact Or.inr (Body.mem_mentions_of_mem_free hbody)
    · exact Or.inl (Or.inl (Or.inl (Or.inr hdims)))
    · exact Or.inl (Or.inl (Or.inl (Or.inl hinit)))
    · exact Or.inl (Or.inl (Or.inr (LoopForm.mem_mentions_of_mem_bounds hbound)))

/-- What is free in a function is mentioned in it. -/
theorem Lambda.mem_mentions_of_mem_free {n : Name} : ∀ {f : Lambda}, n ∈ f.free → n ∈ f.mentions
  | ⟨index, params, body, returns⟩, h => by
    simp only [Lambda.free, Lambda.mentions, NameSet.mem_union, NameSet.mem_sdiff,
      NameSet.mem_ofList, List.mem_append] at h ⊢
    rcases h with ⟨hbody | hdims | hreturns, -⟩
    · exact Or.inl (Or.inr (Body.mem_mentions_of_mem_free hbody))
    · exact Or.inl (Or.inl hdims)
    · exact Or.inr hreturns

/-- What is free in a kernel is mentioned in it. -/
theorem Kernel.mem_mentions_of_mem_free {n : Name} : ∀ {k : Kernel}, n ∈ k.free → n ∈ k.mentions
  | ⟨checks, width, thread, space, inputs, returns, body⟩, h => by
    have hbody := fun h => Body.mem_mentions_of_mem_free (n := n) (b := body) h
    simp only [Kernel.free, Kernel.mentions, NameSet.mem_union, NameSet.mem_sdiff,
      NameSet.mem_ofList, List.mem_append, List.mem_flatMap, List.mem_map, List.mem_cons,
      Pattern.mem_dimNames, Ty.mem_dimNames, Operand.mem_names] at h ⊢
    grind

/-- What is free in a body is mentioned in it. -/
theorem Body.mem_mentions_of_mem_free {n : Name} : ∀ {b : Body}, n ∈ b.free → n ∈ b.mentions
  | .yield values, h => by simpa only [Body.free, NameSet.mem_ofList, Body.mentions] using h
  | .bind pattern exp rest, h => by
    simp only [Body.free, Body.mentions, NameSet.mem_union, NameSet.mem_sdiff, NameSet.mem_ofList,
      List.mem_append] at h ⊢
    rcases h with (hexp | hdims) | ⟨hrest, -⟩
    · exact Or.inl (Or.inl (Exp.mem_mentions_of_mem_free hexp))
    · exact Or.inl (Or.inr hdims)
    · exact Or.inr (Body.mem_mentions_of_mem_free hrest)

end

namespace Body

/-- A chain of statements mentions what they mention, and the values it yields. -/
theorem mentions_ofStms {stms : List Stm} {values : List Operand} :
    (ofStms stms values).mentions = stms.flatMap Stm.mentions ++ Operand.names values := by
  induction stms with
  | nil => simp [mentions]
  | cons s stms ih => simp [mentions, ih, Stm.mentions]

/-- A chain of statements binds what they bind. -/
theorem binders_ofStms {stms : List Stm} {values : List Operand} :
    (ofStms stms values).binders = stms.flatMap Stm.binders := by
  induction stms with
  | nil => simp [binders]
  | cons s stms ih => simp [binders, ih, Stm.binders]

end Body

end MapNest
