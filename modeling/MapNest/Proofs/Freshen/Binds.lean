import MapNest.Proofs.Analysis.Mentions
import MapNest.Proofs.Freshen

/-!
# `MapNest.Proofs.Freshen.Binds`: the names that a walk brings in

A walk that gives fresh names takes one from its supply for every binder, each with the base of the
name that it replaces (`Freshening.Binds`). Whatever is mentioned in the result was mentioned before
or is the name that a replacement brought in (`Renews`). Both hold of any syntax, whether its names
are used in their scopes or not.

`Renews` is put together with `trans`, in the order of the walk; where that is not the order in
which binders are listed, `swap` changes it. The mutual block at the end is the induction on the
syntax.
-/

set_option autoImplicit false

namespace MapNest

/-! ### Replacements -/

/-- Replacements of other names do not count. -/
theorem Name.subst_append_of_not_mem {σ τ : Subst} {n : Name} (h : n ∉ σ.names) :
    n.subst (σ ++ τ) = n.subst τ := by
  have hnone : σ.lookup n = none := by
    refine List.lookup_eq_none_iff.2 fun p hp => ?_
    simp only [bne_iff_ne, ne_eq]
    rintro rfl
    exact h (List.mem_map_of_mem hp)
  rw [Name.subst, List.lookup_append, hnone, Option.none_or, Name.subst]

/-- The first replacement of a name counts. -/
theorem Name.mk_subst_mem {σ τ : Subst} {n : Name} (h : n ∈ σ.names) :
    (n, n.subst (σ ++ τ)) ∈ σ := by
  obtain ⟨m, hm⟩ : ∃ m, σ.lookup n = some m := by
    rw [← Option.isSome_iff_exists, Option.isSome_iff_ne_none]
    intro hnone
    obtain ⟨p, hp, rfl⟩ := List.mem_map.1 h
    exact absurd (List.lookup_eq_none_iff.1 hnone p hp) (by simp)
  obtain ⟨l₁, l₂, hσ, -⟩ := List.lookup_eq_some_iff.1 hm
  have hsubst : n.subst (σ ++ τ) = m := by
    rw [Name.subst, List.lookup_append, hm, Option.some_or, Option.getD_some]
  rw [hsubst, hσ]
  exact List.mem_append_right _ (List.mem_cons_self ..)

/-- A name stays, or one of the replacements stands in its place. -/
theorem Name.subst_eq_or_mem (σ : Subst) (n : Name) : n.subst σ = n ∨ n.subst σ ∈ σ.map (·.2) := by
  by_cases h : n ∈ σ.names
  · have hmem := Name.mk_subst_mem (τ := []) h
    rw [List.append_nil] at hmem
    exact Or.inr (List.mem_map_of_mem hmem)
  · refine Or.inl ?_
    simpa using Name.subst_append_of_not_mem (τ := []) h

namespace Freshening

/-- Steps of a walk bind some names: each gets a fresh one with its base, and nothing else is
replaced. -/
structure Binds (st : Freshening) (names names' : List Name) (st' : Freshening) : Prop where
  /-- The replacements are added to those made before. -/
  subst : ∃ new : Subst, st'.subst = new ++ st.subst ∧ new.Perm (names.zip names')
  /-- A replacement keeps the base. -/
  bases : List.Forall₂ (fun n n' => n'.base = n.base) names names'
  /-- One tag is drawn for each name. -/
  supply : st'.supply.next = st.supply.next + names.length
  /-- The tags drawn are those of the new names. -/
  fresh : Fresh st.supply.next st'.supply.next names'

namespace Binds

variable {st st₁ st' : Freshening} {xs xs' ys ys' : List Name} {n : Name}

/-- No step binds no name. -/
theorem refl : Binds st [] [] st :=
  ⟨⟨[], rfl, .nil⟩, .nil, rfl, .nil⟩

/-- The steps of two parts bind the names of both, those of the first part before those of the
second. -/
theorem trans (h : Binds st xs xs' st₁) (h' : Binds st₁ ys ys' st') :
    Binds st (xs ++ ys) (xs' ++ ys') st' := by
  obtain ⟨new, hnew, hperm⟩ := h.subst
  obtain ⟨new', hnew', hperm'⟩ := h'.subst
  have hle := h.supply
  have hle' := h'.supply
  -- Later replacements stand in front of earlier ones.
  refine ⟨⟨new' ++ new, ?_, ?_⟩, List.rel_append h.bases h'.bases, ?_, ?_⟩
  · rw [hnew', hnew, List.append_assoc]
  · rw [List.zip_append h.bases.length_eq]
    exact List.perm_append_comm.trans (hperm.append hperm')
  · rw [List.length_append]
    omega
  · exact h.fresh.append h'.fresh (by omega) (by omega)

/-- The same names in another order. -/
theorem swap (h : Binds st (xs ++ ys) (xs' ++ ys') st') (hlen : xs.length = xs'.length) :
    Binds st (ys ++ xs) (ys' ++ xs') st' := by
  obtain ⟨new, hnew, hperm⟩ := h.subst
  have hbases := h.bases
  have hlen' : ys.length = ys'.length := by
    have := hbases.length_eq
    simp only [List.length_append] at this
    omega
  -- The two batches are as long after the walk as before, so their bases come apart as well.
  obtain ⟨hx, hy⟩ : List.Forall₂ (fun n n' => n'.base = n.base) xs xs' ∧
      List.Forall₂ (fun n n' => n'.base = n.base) ys ys' := by
    have hleft := List.forall₂_take_append _ _ _ hbases
    have hright := List.forall₂_drop_append _ _ _ hbases
    rw [List.take_left' hlen] at hleft
    rw [List.drop_left' hlen] at hright
    exact ⟨hleft, hright⟩
  refine ⟨⟨new, hnew, ?_⟩, List.rel_append hy hx, ?_, h.fresh.perm List.perm_append_comm⟩
  · rw [List.zip_append hlen']
    rw [List.zip_append hlen] at hperm
    exact hperm.trans List.perm_append_comm
  · rw [h.supply, List.length_append, List.length_append, Nat.add_comm xs.length]

/-- Tags only grow. -/
theorem le (h : Binds st xs xs' st') : st.supply.next ≤ st'.supply.next := by
  have := h.supply
  omega

/-- What is not bound is replaced as before. -/
theorem subst_of_not_mem (h : Binds st xs xs' st') (hn : n ∉ xs) :
    n.subst st'.subst = n.subst st.subst := by
  obtain ⟨new, hnew, hperm⟩ := h.subst
  rw [hnew]
  refine Name.subst_append_of_not_mem fun hmem => hn ?_
  obtain ⟨p, hp, rfl⟩ := List.mem_map.1 hmem
  exact (List.of_mem_zip (hperm.mem_iff.1 hp)).1

/-- A name that is bound is replaced by one of the new names with its base. -/
theorem mem_zip (h : Binds st xs xs' st') (hn : n ∈ xs) :
    (n, n.subst st'.subst) ∈ xs.zip xs' := by
  obtain ⟨new, hnew, hperm⟩ := h.subst
  refine hperm.mem_iff.1 ?_
  rw [hnew]
  refine Name.mk_subst_mem ?_
  -- What the walk added are replacements for the names that it bound.
  have hnames : new.names.Perm xs := by
    have := hperm.map Prod.fst
    rwa [List.map_fst_zip (Nat.le_of_eq h.bases.length_eq)] at this
  exact hnames.mem_iff.2 hn

/-- The new names are those that replacements bring in. -/
theorem mem_range_iff (h : Binds st xs xs' st') :
    n ∈ st'.subst.map (·.2) ↔ n ∈ xs' ∨ n ∈ st.subst.map (·.2) := by
  obtain ⟨new, hnew, hperm⟩ := h.subst
  have hnames := hperm.map Prod.snd
  rw [List.map_snd_zip (Nat.le_of_eq h.bases.length_eq.symm)] at hnames
  rw [hnew, List.map_append, List.mem_append, hnames.mem_iff]

end Binds

/-- Steps of a walk turn syntax that binds and mentions some names into syntax that binds and
mentions others. -/
structure Renews (st : Freshening) (names names' mentions mentions' : List Name)
    (st' : Freshening) : Prop where
  binds : Binds st names names' st'
  /-- What is mentioned was mentioned before, or is brought in by a replacement. -/
  origin : ∀ n ∈ mentions', n ∈ mentions ∨ n ∈ st'.subst.map (·.2)

namespace Renews

variable {st st₁ st' : Freshening} {xs xs' ys ys' ms ms' ns ns' : List Name}

/-- No step binds and mentions no name. -/
theorem refl : Renews st [] [] [] [] st := ⟨.refl, by simp⟩

/-- Two parts of a walk, one after the other. -/
theorem trans (h : Renews st xs xs' ms ms' st₁) (h' : Renews st₁ ys ys' ns ns' st') :
    Renews st (xs ++ ys) (xs' ++ ys') (ms ++ ns) (ms' ++ ns') st' := by
  refine ⟨h.binds.trans h'.binds, fun n hn => ?_⟩
  rw [List.mem_append]
  rcases List.mem_append.1 hn with hn | hn
  · rcases h.origin n hn with hold | hnew
    · exact Or.inl (Or.inl hold)
    · exact Or.inr (h'.binds.mem_range_iff.2 (Or.inr hnew))
  · rcases h'.origin n hn with hold | hnew
    · exact Or.inl (Or.inr hold)
    · exact Or.inr hnew

/-- The binders may be listed in another order than that of the walk. -/
theorem swap (h : Renews st (xs ++ ys) (xs' ++ ys') ms ms' st') (hlen : xs.length = xs'.length) :
    Renews st (ys ++ xs) (ys' ++ xs') ms ms' st' :=
  ⟨h.binds.swap hlen, h.origin⟩

/-- Reading the replacements so far binds nothing. -/
theorem read (st : Freshening) (ms : List Name) :
    Renews st [] [] ms (ms.map (Name.subst st.subst)) st := by
  refine ⟨.refl, fun n hn => ?_⟩
  obtain ⟨m, hm, rfl⟩ := List.mem_map.1 hn
  rcases Name.subst_eq_or_mem st.subst m with heq | hnew
  · exact Or.inl (heq.symm ▸ hm)
  · exact Or.inr hnew

end Renews

end Freshening

open Freshening

variable {st st' : Freshening}

/-! ### Steps of the walk -/

/-- The names in a type are replaced one by one. -/
theorem Ty.dimNames_subst {σ : Subst} {ty : Ty} :
    (ty.subst σ).dimNames = ty.dimNames.map (Name.subst σ) := by
  rw [dimNames, dims_subst, Operand.names_map_subst, dimNames]

namespace FreshenM

/-- Replacing a name binds it. -/
theorem replace_binds {n n' : Name} (h : replace n st = .ok n' st') : Binds st [n] [n'] st' := by
  obtain ⟨rfl, rfl⟩ := replace_eq_ok h
  refine ⟨⟨[(n, _)], rfl, .refl _⟩, .cons rfl .nil, rfl, ?_⟩
  have hdrawn : Drawn st.supply.next (st.supply.next + 1) [⟨n.base, st.supply.next⟩] :=
    .singleton (Nat.le_refl _) (Nat.lt_succ_self _)
  exact hdrawn.fresh

/-- Replacing a name mentions nothing. -/
theorem replace_renews {n n' : Name} (h : replace n st = .ok n' st') :
    Renews st [n] [n'] [] [] st' :=
  ⟨replace_binds h, by simp⟩

/-- A binder binds its name and mentions what is in its type. -/
theorem binder_renews {b b' : Binder} (h : binder b st = .ok b' st') :
    Renews st [b.name] [b'.name] b.ty.dimNames b'.ty.dimNames st' := by
  obtain ⟨hreplace, hty⟩ := binder_eq_ok h
  rw [hty, Ty.dimNames_subst]
  simpa using (Renews.read _ _).trans (replace_renews hreplace)

/-- A dimension binds its index and mentions its size. -/
theorem axis_renews {a a' : Axis} (h : axis a st = .ok a' st') :
    Renews st [a.index] [a'.index] (Operand.names [a.size]) (Operand.names [a'.size]) st' := by
  obtain ⟨hreplace, hsize⟩ := axis_eq_ok h
  rw [hsize, Operand.names_singleton_subst]
  simpa using (Renews.read _ _).trans (replace_renews hreplace)

/-- A kernel's parameter binds its name, and mentions its indices and what is in its type. -/
theorem input_renews {i : KernelInput × Name} {i' : KernelInput} (h : input i st = .ok i' st') :
    Renews st [i.1.param.name] [i'.param.name]
      (Operand.names i.1.indices ++ i.1.param.ty.dimNames)
      (Operand.names i'.indices ++ i'.param.ty.dimNames) st' := by
  obtain ⟨hbinder, -, hindices⟩ := input_eq_ok h
  rw [hindices, Operand.names_map_subst]
  exact (Renews.read _ _).trans (binder_renews hbinder)

/-- A loop binds its index and mentions its bound, or mentions its condition. -/
theorem form_renews {f f' : LoopForm} (h : form f st = .ok f' st') :
    Renews st (Pattern.names f.binders) (Pattern.names f'.binders) f.mentions f'.mentions st' := by
  cases f with
  | forBelow index bound =>
    obtain ⟨n, hreplace, rfl⟩ := form_forBelow_eq_ok h
    simp only [LoopForm.mentions, Operand.names_singleton_subst, LoopForm.binders, Pattern.names]
    simpa using (Renews.read _ _).trans (replace_renews hreplace)
  | whileTrue cond =>
    obtain ⟨rfl, rfl⟩ := form_whileTrue_eq_ok h
    exact Renews.read _ _

/-- What each step over a list renews, the whole run does. -/
theorem mapM_renews {α β : Type} {f : α → FreshenM β} {name : α → Name} {name' : β → Name}
    {mentions : α → List Name} {mentions' : β → List Name}
    (hf : ∀ a b s s', f a s = .ok b s' → Renews s [name a] [name' b] (mentions a) (mentions' b) s')
    {l : List α} {bs : List β} (h : (l.mapM f) st = .ok bs st') :
    Renews st (l.map name) (bs.map name') (l.flatMap mentions) (bs.flatMap mentions') st' := by
  refine mapM_induction (fun s l bs s' => Renews s (l.map name) (bs.map name')
    (l.flatMap mentions) (bs.flatMap mentions') s') ?_ ?_ h
  · exact fun s => .refl
  · intro a l b bs s s₁ s' hb ih
    exact (hf a b s s₁ hb).trans ih

/-- The binders of a pattern bind its names and mention what is in their types. -/
theorem binders_renews {p p' : Pattern} (h : binders p st = .ok p' st') :
    Renews st (Pattern.names p) (Pattern.names p') (Pattern.dimNames p) (Pattern.dimNames p') st' :=
  mapM_renews (f := binder) (fun _ _ _ _ => binder_renews) h

end FreshenM

/-! ### The whole walk -/

/-- Carried values put together from parameters and initial values have these parameters. -/
theorem Merge.map_param_zipWith {params : List Binder} {inits : List Operand}
    (h : params.length = inits.length) :
    (params.zipWith Merge.mk inits).map (·.param) = params := by
  rw [← List.map_uncurry_zip_eq_zipWith, List.map_map]
  exact List.map_fst_zip (Nat.le_of_eq h)

/-- Carried values put together from parameters and initial values have these initial values. -/
theorem Merge.map_init_zipWith {params : List Binder} {inits : List Operand}
    (h : params.length = inits.length) :
    (params.zipWith Merge.mk inits).map (·.init) = inits := by
  rw [← List.map_uncurry_zip_eq_zipWith, List.map_map]
  exact List.map_snd_zip (Nat.le_of_eq h.symm)

/-- The case of a loop, given that of its body. -/
theorem Loop.renews_of_body {l l' : Loop} (h : l.freshen st = .ok l' st')
    (hbody : ∀ s, l.body.freshen s = .ok l'.body st' →
      Renews s (Pattern.names l.body.binders) (Pattern.names l'.body.binders) l.body.mentions
        l'.body.mentions st') :
    Renews st (Pattern.names l.binders) (Pattern.names l'.binders) l.mentions l'.mentions st' := by
  obtain ⟨params, s₁, s₂, hparams, hform, hrest, hret, hmerge⟩ := freshen_steps h
  have hrenews₁ := FreshenM.binders_renews hparams
  have hlen : params.length = (l.merge.map (·.init.subst st.subst)).length := by
    simpa [Pattern.names] using hrenews₁.binds.bases.length_eq.symm
  have hparam : l'.merge.map (·.param) = params := hmerge ▸ Merge.map_param_zipWith hlen
  have hinit : Operand.names (l'.merge.map (·.init))
      = (Operand.names (l.merge.map (·.init))).map (Name.subst st.subst) := by
    rw [hmerge, Merge.map_init_zipWith hlen, ← Operand.names_map_subst, List.map_map]
    rfl
  -- The initial values are read first, the values returned in front of the body.
  have hsteps := Renews.read st (Operand.names (l.merge.map (·.init)))
    |>.trans hrenews₁ |>.trans (FreshenM.form_renews hform) |>.trans (Renews.read s₂ l.ret)
    |>.trans (hbody s₂ hrest)
  rw [← hinit, ← hparam, ← hret] at hsteps
  obtain ⟨ret, merge, form, body⟩ := l
  obtain ⟨ret', merge', form', body'⟩ := l'
  simp only [List.nil_append, List.append_nil, ← Pattern.names_append] at hsteps
  rw [binders, binders, mentions, mentions]
  exact hsteps

/-- The case of a function, given that of its body. -/
theorem Lambda.renews_of_body {f f' : Lambda} (h : f.freshen st = .ok f' st')
    (hbody : ∀ s, f.body.freshen s = .ok f'.body st' →
      Renews s (Pattern.names f.body.binders) (Pattern.names f'.body.binders) f.body.mentions
        f'.body.mentions st') :
    Renews st (Pattern.names f.binders) (Pattern.names f'.binders) f.mentions f'.mentions st' := by
  obtain ⟨s₁, s₂, hindex, hparams, hrest, hreturns⟩ := Lambda.freshen_eq_ok h
  have hnames : f'.returns.flatMap Ty.dimNames
      = (f.returns.flatMap Ty.dimNames).map (Name.subst st'.subst) := by
    simp [hreturns, List.flatMap_map, List.map_flatMap, Ty.dimNames_subst]
  have hsteps := FreshenM.replace_renews hindex |>.trans (FreshenM.binders_renews hparams)
    |>.trans (hbody s₂ hrest) |>.trans (Renews.read st' (f.returns.flatMap Ty.dimNames))
  rw [← hnames] at hsteps
  obtain ⟨index, params, body, returns⟩ := f
  obtain ⟨index', params', body', returns'⟩ := f'
  rw [binders, binders, mentions, mentions]
  simpa [Pattern.names] using hsteps

/-- The case of a kernel, given that of its body. -/
theorem Kernel.renews_of_body {k k' : Kernel} (h : k.freshen st = .ok k' st')
    (hbody : ∀ s, k.body.freshen s = .ok k'.body st' →
      Renews s (Pattern.names k.body.binders) (Pattern.names k'.body.binders) k.body.mentions
        k'.body.mentions st') :
    Renews st (Pattern.names k.binders) (Pattern.names k'.binders) k.mentions k'.mentions st' := by
  obtain ⟨s₁, s₂, s₃, hspace, hthread, hinputs, hrest, hchecks, hwidth, hreturns⟩ :=
    freshen_steps h
  have hspace := FreshenM.mapM_renews (f := FreshenM.axis) (fun _ _ _ _ => FreshenM.axis_renews)
    hspace
  have hinputs' := FreshenM.mapM_renews (f := FreshenM.input) (fun _ _ _ _ => FreshenM.input_renews)
    hinputs
  simp only [List.map_map, List.flatMap_map, Function.comp_def] at hinputs'
  have harrays : k'.inputs.map (·.array) = (k.inputs.map (·.array)).map (Name.subst st.subst) := by
    obtain ⟨-, hall⟩ := FreshenM.mapM_replaces (d := fun i : KernelInput × Name => [i.1.param.name])
      (R := fun _ i i' => i'.array = i.2)
      (fun _ _ _ _ hi => ⟨(FreshenM.input_replaces hi).1, (FreshenM.input_eq_ok hi).2.1⟩) hinputs
    have hmap := map_eq_map_of_forall₂ hall (f := (·.2)) (g := (·.array))
      fun i _ i' _ ⟨_, _, hi⟩ => hi.symm
    rw [← hmap]
    simp
  -- The arrays are paired with the parameters beforehand, so they are read with the checks.
  have hread : Renews st [] [] (k.checks ++ Operand.names [k.width] ++ k.inputs.map (·.array))
      (k'.checks ++ Operand.names [k'.width] ++ k'.inputs.map (·.array)) st := by
    rw [hchecks, hwidth, Operand.names_singleton_subst, harrays, ← List.map_append,
      ← List.map_append]
    exact .read _ _
  have hnames : k'.returns.flatMap (·.ty.dimNames)
      = (k.returns.flatMap (·.ty.dimNames)).map (Name.subst st'.subst) := by
    simp [hreturns, List.flatMap_map, List.map_flatMap, Ty.dimNames_subst]
  -- The thread is listed before the space, but replaced after it.
  have hindices := (hspace.trans (FreshenM.replace_renews hthread)).swap
    (by simpa using hspace.binds.bases.length_eq)
  have hsteps := hread.trans hindices |>.trans hinputs' |>.trans (hbody s₃ hrest)
    |>.trans (Renews.read st' (k.returns.flatMap (·.ty.dimNames)))
  rw [← hnames] at hsteps
  obtain ⟨checks, width, thread, space, inputs, returns, body⟩ := k
  obtain ⟨checks', width', thread', space', inputs', returns', body'⟩ := k'
  rw [binders, binders, mentions, mentions]
  simpa [Pattern.names, Function.comp_def] using hsteps

mutual

/-- A walk through an expression gives a fresh name to each of its binders. -/
theorem Exp.renews : ∀ {e e' : Exp} {st st' : Freshening}, e.freshen st = .ok e' st' →
    Renews st (Pattern.names e.binders) (Pattern.names e'.binders) e.mentions e'.mentions st'
  | .op o, e', st, st', h => by
    obtain ⟨rfl, rfl⟩ := Exp.op_freshen_eq_ok h
    simp only [Exp.binders, Exp.mentions, Op.mentions_subst]
    exact .read _ _
  | .update checks source indices value, e', st, st', h => by
    obtain ⟨rfl, rfl⟩ := Exp.update_freshen_eq_ok h
    simp only [Exp.binders, Exp.mentions, Operand.names_concat_subst]
    rw [← List.map_cons, ← List.map_append]
    exact .read _ _
  | .loop l, e', st, st', h => by
    obtain ⟨l', hl, rfl⟩ := Exp.loop_freshen_eq_ok h
    simp only [Exp.binders, Exp.mentions]
    exact Loop.renews hl
  | .map checks width function arrays, e', st, st', h => by
    obtain ⟨function', hfunction, rfl⟩ := Exp.map_freshen_eq_ok h
    simp only [Exp.binders, Exp.mentions, Operand.names_singleton_subst]
    rw [← List.map_append, ← List.map_append]
    exact (Renews.read _ _).trans (Lambda.renews hfunction)
  | .kernel k, e', st, st', h => by
    obtain ⟨k', hk, rfl⟩ := Exp.kernel_freshen_eq_ok h
    simp only [Exp.binders, Exp.mentions]
    exact Kernel.renews hk

/-- What a walk over a loop binds and mentions. -/
theorem Loop.renews : ∀ {l l' : Loop} {st st' : Freshening}, l.freshen st = .ok l' st' →
    Renews st (Pattern.names l.binders) (Pattern.names l'.binders) l.mentions l'.mentions st'
  | ⟨_, _, _, _⟩, _, _, _, h => Loop.renews_of_body h fun _ hbody => Body.renews hbody

/-- What a walk over a function binds and mentions. -/
theorem Lambda.renews : ∀ {f f' : Lambda} {st st' : Freshening}, f.freshen st = .ok f' st' →
    Renews st (Pattern.names f.binders) (Pattern.names f'.binders) f.mentions f'.mentions st'
  | ⟨_, _, _, _⟩, _, _, _, h => Lambda.renews_of_body h fun _ hbody => Body.renews hbody

/-- What a walk over a kernel binds and mentions. -/
theorem Kernel.renews : ∀ {k k' : Kernel} {st st' : Freshening}, k.freshen st = .ok k' st' →
    Renews st (Pattern.names k.binders) (Pattern.names k'.binders) k.mentions k'.mentions st'
  | ⟨_, _, _, _, _, _, _⟩, _, _, _, h => Kernel.renews_of_body h fun _ hbody => Body.renews hbody

/-- What a walk over a body binds and mentions. -/
theorem Body.renews : ∀ {b b' : Body} {st st' : Freshening}, b.freshen st = .ok b' st' →
    Renews st (Pattern.names b.binders) (Pattern.names b'.binders) b.mentions b'.mentions st'
  | .yield values, b', st, st', h => by
    obtain ⟨rfl, rfl⟩ := Body.yield_freshen_eq_ok h
    simp only [Body.binders, Body.mentions, Operand.names_map_subst]
    exact .read _ _
  | .bind pattern exp rest, b', st, st', h => by
    obtain ⟨exp', pattern', rest', s₁, s₂, hexp, hpattern, hrest, rfl⟩ := Body.bind_freshen_steps h
    -- The pattern is listed before what the expression binds, but replaced after it.
    have hexp := Exp.renews hexp
    have hfirst := (hexp.trans (FreshenM.binders_renews hpattern)).swap hexp.binds.bases.length_eq
    simp only [Body.binders, Body.mentions, Pattern.names_append]
    exact hfirst.trans (Body.renews hrest)

end

end MapNest
