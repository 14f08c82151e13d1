import MapNest.Proofs.Analysis.Free

/-!
# `MapNest.Proofs.Analysis.Consumed`: consumed names, one binding construct at a time

Membership in the names that loops, functions and kernels consume, in terms of the parts they are
made of. A name is consumed where it is overwritten, or where its array goes to a unique parameter,
and there it is mentioned. So what a piece of syntax consumes is free in it, unless the piece binds
it somewhere inside (`Exp.mem_free_of_mem_consumed`).
-/

set_option autoImplicit false

namespace MapNest

variable {n : Name}

/-- An array is among those drawn from uniquely just if it is paired with a unique parameter. -/
theorem mem_drawnUnique {pairs : List (Binder × Name)} :
    n ∈ drawnUnique pairs ↔ ∃ p : Binder, (p, n) ∈ pairs ∧ p.ty.isUnique := by
  simp [drawnUnique, and_comm]

/-- A loop consumes what its body consumes, the carried values apart, and the initial values of
those that are unique. -/
theorem Loop.mem_consumed {l : Loop} :
    n ∈ l.consumed ↔ (n ∈ l.body.consumed ∧ n ∉ l.names) ∨
      ∃ m ∈ l.merge, m.param.ty.isUnique ∧ m.init = .var n := by
  obtain ⟨ret, merge, form, body⟩ := l
  simp only [Loop.consumed, Loop.names, NameSet.mem_union, NameSet.mem_sdiff, NameSet.mem_ofList,
    Operand.mem_names, List.mem_map, List.mem_filter, and_assoc]

/-- A function over some arrays consumes what its body consumes, its parameters apart, and the
arrays of those that are unique. -/
theorem Lambda.mem_consumed {f : Lambda} {arrays : List Name} :
    n ∈ f.consumed arrays ↔ (n ∈ f.body.consumed ∧ n ∉ Pattern.names f.params) ∨
      ∃ p : Binder, (p, n) ∈ f.params.zip arrays ∧ p.ty.isUnique := by
  obtain ⟨index, params, body, returns⟩ := f
  simp only [Lambda.consumed, NameSet.mem_union, NameSet.mem_sdiff, NameSet.mem_ofList,
    mem_drawnUnique]

/-- A kernel consumes what its body consumes, its parameters apart, and the arrays of those that are
unique. -/
theorem Kernel.mem_consumed {k : Kernel} :
    n ∈ k.consumed ↔ (n ∈ k.body.consumed ∧ ∀ i ∈ k.inputs, i.param.name ≠ n) ∨
      ∃ i ∈ k.inputs, i.array = n ∧ i.param.ty.isUnique := by
  obtain ⟨checks, width, thread, space, inputs, returns, body⟩ := k
  simp only [Kernel.consumed, NameSet.mem_union, NameSet.mem_sdiff, NameSet.mem_ofList,
    mem_drawnUnique, List.mem_map, not_exists, not_and, Prod.mk.injEq]
  grind

mutual

/-- What an expression consumes is free in it, or bound inside it. -/
theorem Exp.mem_free_of_mem_consumed : ∀ {e : Exp}, n ∈ e.consumed →
    n ∈ e.free ∨ n ∈ Pattern.names e.binders
  | .op o, h => by
    rw [Exp.consumed] at h
    exact absurd h NameSet.not_mem_empty
  | .update checks source indices value, h => by
    rw [Exp.consumed, NameSet.mem_singleton] at h
    subst h
    exact Or.inl (by simp [Exp.free])
  | .loop l, h => by
    rw [Exp.consumed] at h
    rw [Exp.free, Exp.binders]
    exact Loop.mem_free_of_mem_consumed h
  | .map checks width function arrays, h => by
    rw [Exp.consumed] at h
    rw [Exp.free, Exp.binders, NameSet.mem_union]
    rcases Lambda.mem_free_of_mem_consumed h with hfree | harray | hbinder
    · exact Or.inl (Or.inl hfree)
    · exact Or.inl (Or.inr (by simp [harray]))
    · exact Or.inr hbinder
  | .kernel k, h => by
    rw [Exp.consumed] at h
    rw [Exp.free, Exp.binders]
    exact Kernel.mem_free_of_mem_consumed h

/-- What a loop consumes is free in it or bound somewhere inside. -/
theorem Loop.mem_free_of_mem_consumed : ∀ {l : Loop}, n ∈ l.consumed →
    n ∈ l.free ∨ n ∈ Pattern.names l.binders
  | ⟨ret, merge, form, body⟩, h => by
    have ih := fun h => Body.mem_free_of_mem_consumed (b := body) h
    rw [Loop.mem_consumed] at h
    rw [Loop.mem_free, Loop.binders, Pattern.names_append, Pattern.names_append]
    simp only [List.mem_append]
    -- The body's own index is free in the body and bound by the loop.
    rcases h with ⟨hbody, hnames⟩ | ⟨m, hm, -, hinit⟩
    · by_cases hindex : n ∈ Pattern.names form.binders
      · exact Or.inr (Or.inl (Or.inr hindex))
      · exact (ih hbody).imp (fun hfree => Or.inl ⟨Or.inl hfree, hindex, hnames⟩) Or.inr
    · exact Or.inl (Or.inr (Or.inl ⟨m, hm, hinit⟩))

/-- What a function consumes is free in it, is one of the arrays, or is bound somewhere inside. -/
theorem Lambda.mem_free_of_mem_consumed : ∀ {f : Lambda} {arrays : List Name},
    n ∈ f.consumed arrays → n ∈ f.free ∨ n ∈ arrays ∨ n ∈ Pattern.names f.binders
  | ⟨index, params, body, returns⟩, arrays, h => by
    have ih := fun h => Body.mem_free_of_mem_consumed (b := body) h
    rw [Lambda.mem_consumed] at h
    have hcons : Pattern.names (⟨index, .index⟩ :: params) = index :: Pattern.names params := rfl
    rw [Lambda.mem_free, Lambda.binders, Pattern.names_append, hcons]
    simp only [List.mem_append, List.mem_cons]
    rcases h with ⟨hbody, hparams⟩ | ⟨p, hp, -⟩
    · by_cases hindex : n = index
      · exact Or.inr (Or.inr (Or.inl (Or.inl hindex)))
      · rcases ih hbody with hfree | hbinder
        · exact Or.inl ⟨Or.inl hfree, hindex, hparams⟩
        · exact Or.inr (Or.inr (Or.inr hbinder))
    · exact Or.inr (Or.inl (List.of_mem_zip hp).2)

/-- What a kernel consumes is free in it or bound somewhere inside. -/
theorem Kernel.mem_free_of_mem_consumed : ∀ {k : Kernel}, n ∈ k.consumed →
    n ∈ k.free ∨ n ∈ Pattern.names k.binders
  | ⟨checks, width, thread, space, inputs, returns, body⟩, h => by
    have ih := fun h => Body.mem_free_of_mem_consumed (b := body) h
    rw [Kernel.mem_consumed] at h
    rw [Kernel.mem_free]
    -- A name of the kernel's own is among its binders, whatever it is consumed as.
    by_cases hown : n ∈ (⟨checks, width, thread, space, inputs, returns, body⟩ : Kernel).names
    · refine Or.inr ?_
      simp only [Kernel.names, Kernel.binders, Pattern.names, List.map_append, List.map_cons,
        List.map_map, Function.comp_def] at hown ⊢
      exact List.mem_append_left _ hown
    · rcases h with ⟨hbody, -⟩ | ⟨i, hi, harray, -⟩
      · rcases ih hbody with hfree | hbinder
        · exact Or.inl ⟨Or.inl hfree, hown⟩
        · refine Or.inr ?_
          rw [Kernel.binders, Pattern.names_append]
          exact List.mem_append_right _ hbinder
      · refine Or.inl ⟨Or.inr (Or.inl ?_), hown⟩
        exact Or.inr (Or.inr (Or.inr (Or.inl ⟨i, hi, Or.inl harray⟩)))

/-- What a body consumes is free in it or bound somewhere inside. -/
theorem Body.mem_free_of_mem_consumed : ∀ {b : Body}, n ∈ b.consumed →
    n ∈ b.free ∨ n ∈ Pattern.names b.binders
  | .yield values, h => by
    rw [Body.consumed] at h
    exact absurd h NameSet.not_mem_empty
  | .bind pattern exp rest, h => by
    rw [Body.consumed, NameSet.mem_sdiff, NameSet.mem_union, NameSet.mem_sdiff,
      NameSet.mem_ofList] at h
    rw [Body.free, Body.binders, Pattern.names_append, Pattern.names_append, NameSet.mem_union,
      NameSet.mem_union, NameSet.mem_sdiff, NameSet.mem_ofList, NameSet.mem_ofList]
    simp only [List.mem_append]
    obtain ⟨⟨hexp, -⟩ | hrest, hpattern⟩ := h
    · rcases Exp.mem_free_of_mem_consumed hexp with hfree | hbinder
      · exact Or.inl (Or.inl (Or.inl hfree))
      · exact Or.inr (Or.inl (Or.inr hbinder))
    · rcases Body.mem_free_of_mem_consumed hrest with hfree | hbinder
      · exact Or.inl (Or.inr ⟨hfree, hpattern⟩)
      · exact Or.inr (Or.inr hbinder)

end

/-- What some statements consume is free in them, or bound inside one of them. -/
theorem Stm.mem_freeAll_of_mem_consumedAll {stms : List Stm} (h : n ∈ Stm.consumedAll stms) :
    n ∈ Stm.freeAll stms ∨ n ∈ Pattern.names (stms.flatMap Stm.binders) := by
  obtain ⟨⟨s, hs, hconsumed⟩, hbound⟩ := Stm.mem_consumedAll.1 h
  rcases Exp.mem_free_of_mem_consumed hconsumed with hfree | hbinder
  · refine Or.inl (Stm.mem_freeAll_of_mem hs (Stm.mem_free.2 (Or.inl hfree)) ?_)
    rwa [Stm.bound, NameSet.mem_ofList] at hbound
  · obtain ⟨b, hb, hname⟩ := Pattern.mem_names.1 hbinder
    exact Or.inr (Pattern.mem_names.2
      ⟨b, List.mem_flatMap.2 ⟨s, hs, List.mem_append_right _ hb⟩, hname⟩)

end MapNest
