import MapNest.Freshen
import MapNest.Proofs.Analysis.Free
import MapNest.Proofs.Attempt

/-!
# `MapNest.Proofs.Freshen`: fresh names bring no other names into view

A walk that gives fresh names (`MapNest.Freshen`) replaces names by names drawn from its supply.
Call a name old if its tag is below all of these. An old name in the result was there before, at the
same place, and is not among the names replaced up to that place. This is `Name.subst_eq_iff` for
one mention and `Exp.freshens` for all that is free in an expression.

One thing is in the way of "what is free afterwards was free before". The sizes in the type of a
binder are read before its own name is replaced, and so are those that mention a binder further on.
Such a size is bound before the walk and free after it. The theorems say what a walk really gives:
an old name that is free afterwards was free before or is one of the names bound inside.

`Freshening.Replaces` is what every step of the walk does to its state, and `mapM_replaces` carries
it over lists. A walk is taken apart once for each kind of syntax (`Kernel.freshen_steps` and its
like); the mutual block at the end is the induction, with one case for each constructor.
-/

set_option autoImplicit false

namespace MapNest

/-! ### Replacing names -/

namespace Subst

/-- The names replaced. -/
def names (σ : Subst) : List Name := σ.map (·.1)

/-- Names are replaced by names with tags from a bound on. -/
def Above (lo : Nat) (σ : Subst) : Prop := ∀ p ∈ σ, lo ≤ p.2.tag

end Subst

variable {lo : Nat} {σ : Subst} {n m : Name}

/-- An old name stands where it stood before, if it was not replaced there. -/
theorem Name.subst_eq_iff (hσ : σ.Above lo) (hn : n.tag < lo) :
    m.subst σ = n ↔ m = n ∧ n ∉ σ.names := by
  induction σ with
  | nil => simp [Name.subst_nil, Subst.names]
  | cons p σ ih =>
    have ih := ih fun q hq => hσ q (List.mem_cons_of_mem _ hq)
    have hp := hσ p (List.mem_cons_self ..)
    rw [Name.subst, List.lookup_cons, Subst.names, List.map_cons, List.mem_cons, not_or]
    by_cases hm : m = p.1
    · -- The replacement counts, and what it gives is not old.
      have hne : p.2 ≠ n := by
        rintro rfl
        omega
      simp only [hm, beq_self_eq_true, Option.getD_some]
      constructor
      · intro h
        exact absurd h hne
      · rintro ⟨rfl, hne', -⟩
        exact absurd rfl hne'
    · have hbeq : (m == p.1) = false := by simp [hm]
      rw [hbeq]
      show m.subst σ = n ↔ _
      rw [ih, Subst.names]
      constructor
      · rintro ⟨rfl, h⟩
        exact ⟨rfl, hm, h⟩
      · rintro ⟨rfl, -, h⟩
        exact ⟨rfl, h⟩

/-- An old name is among the replaced ones exactly if it was there and was not replaced. -/
theorem mem_map_subst_iff (hσ : σ.Above lo) (hn : n.tag < lo) {l : List Name} :
    n ∈ l.map (Name.subst σ) ↔ n ∈ l ∧ n ∉ σ.names := by
  rw [List.mem_map]
  constructor
  · rintro ⟨m, hm, h⟩
    obtain ⟨rfl, hnot⟩ := (Name.subst_eq_iff hσ hn).1 h
    exact ⟨hm, hnot⟩
  · rintro ⟨hmem, hnot⟩
    exact ⟨n, hmem, (Name.subst_eq_iff hσ hn).2 ⟨rfl, hnot⟩⟩

/-- An operand that is a name becomes the name that replaces it. Constants stay. -/
theorem Operand.name?_subst {v : Operand} : (v.subst σ).name? = v.name?.map (Name.subst σ) := by
  cases v <;> rfl

/-- The names in replaced operands are the replaced names. -/
theorem Operand.names_map_subst {l : List Operand} :
    names (l.map (Operand.subst σ)) = (names l).map (Name.subst σ) := by
  rw [names, names, List.filterMap_map, List.map_filterMap]
  congr 1
  funext v
  exact name?_subst

/-- The case of one operand. -/
theorem Operand.names_singleton_subst {v : Operand} :
    names [v.subst σ] = (names [v]).map (Name.subst σ) :=
  names_map_subst (l := [v])

/-- The case of operands with one more at their end, as in an update. -/
theorem Operand.names_concat_subst {l : List Operand} {v : Operand} :
    names (l.map (Operand.subst σ) ++ [v.subst σ]) = (names (l ++ [v])).map (Name.subst σ) := by
  rw [← names_map_subst, List.map_append, List.map_singleton]

/-- The sizes of a type are replaced one by one. -/
theorem Ty.dims_subst {ty : Ty} : (ty.subst σ).dims = ty.dims.map (Operand.subst σ) := by
  cases ty <;> rfl

/-- The size of a new dimension is replaced, and its kind stays. -/
theorem NewDim.size_subst {d : NewDim} : (d.subst σ).size = d.size.subst σ := by
  cases d <;> rfl

/-- An operation mentions the replacements of what it mentioned. -/
theorem Op.mentions_subst {o : Op} : (o.subst σ).mentions = o.mentions.map (Name.subst σ) := by
  have hnames := fun l => Operand.names_map_subst (σ := σ) (l := l)
  cases o with
  | value v => exact hnames [v]
  | arith op ty left right => exact hnames [left, right]
  | index checks array indices => simp [subst, mentions, hnames]
  | iota count => exact hnames [count]
  | replicate count v => exact hnames [count, v]
  | rearrange checks perm array => simp [subst, mentions]
  | reshape checks shape array =>
    have hsizes : (shape.map (NewDim.subst σ)).map NewDim.size
        = (shape.map NewDim.size).map (Operand.subst σ) := by
      rw [List.map_map, List.map_map]
      congr 1
      funext d
      exact NewDim.size_subst
    simp only [subst, mentions, hsizes, hnames, List.map_append, List.map_cons, List.map_nil]
  | copy array => rfl

/-- An old name is among replaced operands exactly if it was there and was not replaced. -/
theorem Operand.var_mem_map_subst_iff (hσ : σ.Above lo) (hn : n.tag < lo) {l : List Operand} :
    .var n ∈ l.map (Operand.subst σ) ↔ .var n ∈ l ∧ n ∉ σ.names := by
  rw [← Operand.mem_names, Operand.names_map_subst, mem_map_subst_iff hσ hn, Operand.mem_names]

/-- A replaced operand is an old name exactly if it was that name, not replaced. -/
theorem Operand.subst_eq_var_iff (hσ : σ.Above lo) (hn : n.tag < lo) {v : Operand} :
    v.subst σ = .var n ↔ v = .var n ∧ n ∉ σ.names := by
  rw [← name?_eq_some_iff, name?_subst, Option.map_eq_some_iff]
  constructor
  · rintro ⟨m, hm, h⟩
    obtain ⟨rfl, hnot⟩ := (Name.subst_eq_iff hσ hn).1 h
    exact ⟨name?_eq_some_iff.1 hm, hnot⟩
  · rintro ⟨rfl, hnot⟩
    exact ⟨n, rfl, (Name.subst_eq_iff hσ hn).2 ⟨rfl, hnot⟩⟩

/-- An old name is a size of a replaced type exactly if it was one before, not replaced. -/
theorem Ty.var_mem_dims_subst_iff (hσ : σ.Above lo) (hn : n.tag < lo) {ty : Ty} :
    .var n ∈ (ty.subst σ).dims ↔ .var n ∈ ty.dims ∧ n ∉ σ.names := by
  rw [Ty.dims_subst]
  exact Operand.var_mem_map_subst_iff hσ hn

/-! ### The state of the walk -/

namespace Freshening

/-- All names replaced were drawn from a tag on, and so will those to come. -/
structure Above (lo : Nat) (st : Freshening) : Prop where
  subst : st.subst.Above lo
  supply : lo ≤ st.supply.next

/-- Steps of a walk replace some names, and forget no replacement. -/
structure Replaces (st : Freshening) (names : List Name) (st' : Freshening) : Prop where
  above : ∀ lo, st.Above lo → st'.Above lo
  kept : ∀ n ∈ st.subst.names, n ∈ st'.subst.names
  new : ∀ n ∈ names, n ∈ st'.subst.names

namespace Replaces

variable {st st₁ st' : Freshening} {xs ys zs : List Name}

/-- No step replaces no name. -/
theorem refl : Replaces st [] st := ⟨fun _ h => h, fun _ h => h, by simp⟩

/-- The steps of two parts replace the names of both. -/
theorem trans (h : Replaces st xs st₁) (h' : Replaces st₁ ys st') : Replaces st (xs ++ ys) st' where
  above lo hlo := h'.above lo (h.above lo hlo)
  kept n hn := h'.kept n (h.kept n hn)
  new n hn := by
    rcases List.mem_append.1 hn with hn | hn
    · exact h'.kept n (h.new n hn)
    · exact h'.new n hn

/-- Some of the names may be left out. -/
theorem subset (h : Replaces st xs st') (hsub : zs ⊆ xs) : Replaces st zs st' where
  above := h.above
  kept := h.kept
  new n hn := h.new n (hsub hn)

/-- What stands unreplaced after some steps was neither replaced before nor by them. -/
theorem not_mem (h : Replaces st xs st') {n : Name} (hn : n ∉ st'.subst.names) :
    n ∉ st.subst.names ∧ n ∉ xs :=
  ⟨fun hmem => hn (h.kept n hmem), fun hmem => hn (h.new n hmem)⟩

end Replaces

end Freshening

open Freshening (Replaces)

variable {st st' : Freshening}

namespace FreshenM

/-- Looking at the replacements changes nothing. -/
theorem subst_eq_ok_iff {τ : Subst} : subst st = .ok τ st' ↔ τ = st.subst ∧ st' = st := by
  show EStateM.Result.ok st.subst st = .ok τ st' ↔ _
  simp only [EStateM.Result.ok.injEq, eq_comm]

/-- Looking at the replacements so far changes nothing. -/
theorem bind_subst_eq_ok_iff {α : Type} {f : Subst → FreshenM α} {a : α} :
    (subst >>= f) st = .ok a st' ↔ f st.subst st = .ok a st' := by
  rw [bind_eq_ok_iff]
  constructor
  · rintro ⟨τ, s₁, hsubst, h⟩
    obtain ⟨rfl, rfl⟩ := subst_eq_ok_iff.1 hsubst
    exact h
  · intro h
    exact ⟨st.subst, st, subst_eq_ok_iff.2 ⟨rfl, rfl⟩, h⟩

/-- A name is replaced by one of its base with the next tag. -/
theorem replace_eq_ok {n n' : Name} (h : replace n st = .ok n' st') :
    n' = ⟨n.base, st.supply.next⟩ ∧ st' = ⟨(n, n') :: st.subst, ⟨st.supply.next + 1⟩⟩ := by
  unfold replace at h
  cases hfresh : Supply.freshLike n st.supply with
  | error e supply =>
    rw [hfresh] at h
    cases h
  | ok m supply =>
    rw [hfresh] at h
    cases h
    obtain ⟨-, rfl, rfl⟩ := Supply.fresh_eq_ok_iff.1 hfresh
    exact ⟨rfl, rfl⟩

/-- The sizes in a binder's type are read before its name is replaced. -/
theorem binder_eq_ok {b b' : Binder} (h : binder b st = .ok b' st') :
    replace b.name st = .ok b'.name st' ∧ b'.ty = b.ty.subst st.subst := by
  unfold binder at h
  rw [bind_subst_eq_ok_iff] at h
  obtain ⟨n, hreplace, rfl⟩ := bind_pure_eq_ok_iff.1 h
  exact ⟨hreplace, rfl⟩

/-- The size of a dimension is read before its index is replaced. -/
theorem axis_eq_ok {a a' : Axis} (h : axis a st = .ok a' st') :
    replace a.index st = .ok a'.index st' ∧ a'.size = a.size.subst st.subst := by
  unfold axis at h
  rw [bind_subst_eq_ok_iff] at h
  obtain ⟨n, hreplace, rfl⟩ := bind_pure_eq_ok_iff.1 h
  exact ⟨hreplace, rfl⟩

/-- The indices of a kernel's parameter are read before its name is replaced. -/
theorem input_eq_ok {i : KernelInput × Name} {i' : KernelInput} (h : input i st = .ok i' st') :
    binder i.1.param st = .ok i'.param st' ∧ i'.array = i.2 ∧
      i'.indices = i.1.indices.map (Operand.subst st.subst) := by
  unfold input at h
  rw [bind_subst_eq_ok_iff] at h
  obtain ⟨b, hbinder, rfl⟩ := bind_pure_eq_ok_iff.1 h
  exact ⟨hbinder, rfl, rfl⟩

/-- The bound of a loop is read before its index is replaced. -/
theorem form_forBelow_eq_ok {index : Name} {bound : Operand} {f' : LoopForm}
    (h : form (.forBelow index bound) st = .ok f' st') :
    ∃ index', replace index st = .ok index' st' ∧
      f' = .forBelow index' (bound.subst st.subst) := by
  unfold form at h
  rw [bind_subst_eq_ok_iff] at h
  obtain ⟨index', hreplace, rfl⟩ := bind_pure_eq_ok_iff.1 h
  exact ⟨index', hreplace, rfl⟩

/-- A condition is read, and nothing is replaced. -/
theorem form_whileTrue_eq_ok {cond : Name} {f' : LoopForm}
    (h : form (.whileTrue cond) st = .ok f' st') :
    f' = .whileTrue (cond.subst st.subst) ∧ st' = st := by
  unfold form at h
  rw [bind_subst_eq_ok_iff] at h
  obtain ⟨rfl, rfl⟩ := pure_eq_ok_iff.1 h
  exact ⟨rfl, rfl⟩

/-- Replacing a name adds it to the names replaced. -/
theorem replace_replaces (h : replace n st = .ok m st') : Replaces st [n] st' := by
  obtain ⟨rfl, rfl⟩ := replace_eq_ok h
  constructor
  · intro lo hlo
    refine ⟨?_, Nat.le_succ_of_le hlo.supply⟩
    intro p hp
    rcases List.mem_cons.1 hp with rfl | hp
    · exact hlo.supply
    · exact hlo.subst p hp
  · intro n hn
    exact List.mem_cons_of_mem _ hn
  · intro n hn
    rw [List.mem_singleton.1 hn]
    exact List.mem_cons_self ..

/-- A binder adds its name, and its type is read before. -/
theorem binder_replaces {b b' : Binder} (h : binder b st = .ok b' st') :
    Replaces st [b.name] st' ∧ b'.ty = b.ty.subst st.subst :=
  (binder_eq_ok h).imp_left replace_replaces

/-- A dimension adds its index, and its size is read before. -/
theorem axis_replaces {a a' : Axis} (h : axis a st = .ok a' st') :
    Replaces st [a.index] st' ∧ a'.size = a.size.subst st.subst :=
  (axis_eq_ok h).imp_left replace_replaces

/-- A kernel's parameter adds its name. Its type and its indices are read before. -/
theorem input_replaces {i : KernelInput × Name} {i' : KernelInput}
    (h : input i st = .ok i' st') :
    Replaces st [i.1.param.name] st' ∧ i'.param.ty = i.1.param.ty.subst st.subst ∧
      i'.array = i.2 ∧ i'.indices = i.1.indices.map (Operand.subst st.subst) := by
  obtain ⟨hbinder, harray, hindices⟩ := input_eq_ok h
  obtain ⟨hreplaces, hty⟩ := binder_replaces hbinder
  exact ⟨hreplaces, hty, harray, hindices⟩

/-- A loop adds its index if it counts. Its bound is read before. -/
theorem form_replaces {f f' : LoopForm} (h : form f st = .ok f' st') :
    Replaces st (Pattern.names f.binders) st' ∧
      f'.bounds = f.bounds.map (Operand.subst st.subst) := by
  cases f with
  | forBelow index bound =>
    obtain ⟨n, hreplace, rfl⟩ := form_forBelow_eq_ok h
    exact ⟨replace_replaces hreplace, rfl⟩
  | whileTrue cond =>
    obtain ⟨rfl, rfl⟩ := form_whileTrue_eq_ok h
    exact ⟨.refl, rfl⟩

/-- If each step over a list replaces names and relates what it is given to its result, then the
whole run replaces all these names, and each result is related as of some time on the way. -/
theorem mapM_replaces {α β : Type} {f : α → FreshenM β} {d : α → List Name}
    {R : Freshening → α → β → Prop}
    (hf : ∀ a b s s', f a s = .ok b s' → Replaces s (d a) s' ∧ R s a b)
    {l : List α} {bs : List β} (h : (l.mapM f) st = .ok bs st') :
    Replaces st (l.flatMap d) st' ∧
      List.Forall₂ (fun a b => ∃ s, Replaces st [] s ∧ R s a b) l bs := by
  -- A later step sees the replacements of the earlier ones, so its time is shifted by them.
  refine mapM_induction (fun s l bs s' => Replaces s (l.flatMap d) s' ∧
    List.Forall₂ (fun a b => ∃ s₁, Replaces s [] s₁ ∧ R s₁ a b) l bs) ?_ ?_ h
  · intro s
    exact ⟨.refl, .nil⟩
  · intro a l b bs s s₁ s' hb ih
    obtain ⟨hreplaces, hR⟩ := hf a b s s₁ hb
    obtain ⟨hreplaces', hall⟩ := ih
    refine ⟨hreplaces.trans hreplaces', .cons ⟨s, .refl, hR⟩ (hall.imp ?_)⟩
    rintro a' b' ⟨s₂, hs₂, hR'⟩
    exact ⟨s₂, (hreplaces.trans hs₂).subset (List.nil_subset _), hR'⟩

/-- An old name in a later type of a pattern was in the pattern's types before. -/
theorem binders_replaces {p p' : Pattern} (h : binders p st = .ok p' st') :
    Replaces st (Pattern.names p) st' ∧
      ∀ lo n, st.Above lo → n.tag < lo → n ∈ Pattern.dimNames p' →
        n ∈ Pattern.dimNames p ∧ n ∉ st.subst.names := by
  obtain ⟨hreplaces, hall⟩ := mapM_replaces (d := fun b : Binder => [b.name])
    (R := fun s b b' => b'.ty = b.ty.subst s.subst) (fun _ _ _ _ => binder_replaces) h
  refine ⟨hreplaces.subset ?_, ?_⟩
  · intro n hn
    simpa [Pattern.names, eq_comm] using hn
  · intro lo n hlo hn hmem
    obtain ⟨b', hb', hdims⟩ := Pattern.mem_dimNames.1 hmem
    obtain ⟨b, hb, s, hs, hty⟩ := exists_of_mem_right hall hb'
    rw [hty, Ty.var_mem_dims_subst_iff (hs.above lo hlo).subst hn] at hdims
    exact ⟨Pattern.mem_dimNames.2 ⟨b, hb, hdims.1⟩, (hs.not_mem hdims.2).1⟩

end FreshenM

/-! ### Walks taken apart -/

/-- The steps of a walk through a loop. -/
theorem Loop.freshen_steps {l l' : Loop} (h : l.freshen st = .ok l' st') :
    ∃ params s₁ s₂, FreshenM.binders (l.merge.map (·.param)) st = .ok params s₁ ∧
      FreshenM.form l.form s₁ = .ok l'.form s₂ ∧ l.body.freshen s₂ = .ok l'.body st' ∧
      l'.ret = l.ret.map (Name.subst s₂.subst) ∧
      l'.merge = params.zipWith Merge.mk (l.merge.map (·.init.subst st.subst)) := by
  obtain ⟨ret, merge, form, body⟩ := l
  unfold freshen at h
  rw [FreshenM.bind_subst_eq_ok_iff] at h
  obtain ⟨params, s₁, hparams, h⟩ := bind_eq_ok_iff.1 h
  obtain ⟨form', s₂, hform, h⟩ := bind_eq_ok_iff.1 h
  rw [FreshenM.bind_subst_eq_ok_iff] at h
  obtain ⟨body', hbody, rfl⟩ := bind_pure_eq_ok_iff.1 h
  exact ⟨params, s₁, s₂, hparams, hform, hbody, rfl, rfl⟩

/-- The steps of a walk through a function. -/
theorem Lambda.freshen_eq_ok {f f' : Lambda} (h : f.freshen st = .ok f' st') :
    ∃ s₁ s₂, FreshenM.replace f.index st = .ok f'.index s₁ ∧
      FreshenM.binders f.params s₁ = .ok f'.params s₂ ∧ f.body.freshen s₂ = .ok f'.body st' ∧
      f'.returns = f.returns.map (Ty.subst st'.subst) := by
  obtain ⟨index, params, body, returns⟩ := f
  unfold freshen at h
  obtain ⟨index', s₁, hindex, h⟩ := bind_eq_ok_iff.1 h
  obtain ⟨params', s₂, hparams, h⟩ := bind_eq_ok_iff.1 h
  obtain ⟨body', s₃, hbody, h⟩ := bind_eq_ok_iff.1 h
  rw [FreshenM.bind_subst_eq_ok_iff] at h
  obtain ⟨rfl, rfl⟩ := pure_eq_ok_iff.1 h
  exact ⟨s₁, s₂, hindex, hparams, hbody, rfl⟩

/-- The steps of a walk through a kernel. -/
theorem Kernel.freshen_steps {k k' : Kernel} (h : k.freshen st = .ok k' st') :
    ∃ s₁ s₂ s₃, k.space.mapM FreshenM.axis st = .ok k'.space s₁ ∧
      FreshenM.replace k.thread s₁ = .ok k'.thread s₂ ∧
      (k.inputs.map fun i => (i, i.array.subst st.subst)).mapM FreshenM.input s₂
        = .ok k'.inputs s₃ ∧
      k.body.freshen s₃ = .ok k'.body st' ∧
      k'.checks = k.checks.map (Name.subst st.subst) ∧ k'.width = k.width.subst st.subst ∧
      k'.returns = k.returns.map fun o => { o with ty := o.ty.subst st'.subst } := by
  obtain ⟨checks, width, thread, space, inputs, returns, body⟩ := k
  unfold freshen at h
  rw [FreshenM.bind_subst_eq_ok_iff] at h
  obtain ⟨space', s₁, hspace, h⟩ := bind_eq_ok_iff.1 h
  obtain ⟨thread', s₂, hthread, h⟩ := bind_eq_ok_iff.1 h
  obtain ⟨inputs', s₃, hinputs, h⟩ := bind_eq_ok_iff.1 h
  obtain ⟨body', s₄, hbody, h⟩ := bind_eq_ok_iff.1 h
  rw [FreshenM.bind_subst_eq_ok_iff] at h
  obtain ⟨rfl, rfl⟩ := pure_eq_ok_iff.1 h
  exact ⟨s₁, s₂, s₃, hspace, hthread, hinputs, hbody, rfl, rfl, rfl⟩

/-- An operation binds nothing inside, so it is only read. -/
theorem Exp.op_freshen_eq_ok {o : Op} {e' : Exp} (h : (Exp.op o).freshen st = .ok e' st') :
    e' = .op (o.subst st.subst) ∧ st' = st := by
  unfold freshen at h
  rw [FreshenM.bind_subst_eq_ok_iff] at h
  obtain ⟨rfl, rfl⟩ := pure_eq_ok_iff.1 h
  exact ⟨rfl, rfl⟩

/-- An update binds nothing inside, so it is only read. -/
theorem Exp.update_freshen_eq_ok {checks : List Name} {source : Name} {indices : List Operand}
    {value : Operand} {e' : Exp}
    (h : (Exp.update checks source indices value).freshen st = .ok e' st') :
    e' = .update (checks.map (Name.subst st.subst)) (source.subst st.subst)
      (indices.map (Operand.subst st.subst)) (value.subst st.subst) ∧ st' = st := by
  unfold freshen at h
  rw [FreshenM.bind_subst_eq_ok_iff] at h
  obtain ⟨rfl, rfl⟩ := pure_eq_ok_iff.1 h
  exact ⟨rfl, rfl⟩

/-- A loop stays a loop. -/
theorem Exp.loop_freshen_eq_ok {l : Loop} {e' : Exp} (h : (Exp.loop l).freshen st = .ok e' st') :
    ∃ l', l.freshen st = .ok l' st' ∧ e' = .loop l' := by
  unfold freshen at h
  obtain ⟨l', hl, rfl⟩ := bind_pure_eq_ok_iff.1 h
  exact ⟨l', hl, rfl⟩

/-- What a map names outside its function is read before the walk enters the function. -/
theorem Exp.map_freshen_eq_ok {checks arrays : List Name} {width : Operand} {f : Lambda} {e' : Exp}
    (h : (Exp.map checks width f arrays).freshen st = .ok e' st') :
    ∃ f', f.freshen st = .ok f' st' ∧
      e' = .map (checks.map (Name.subst st.subst)) (width.subst st.subst) f'
        (arrays.map (Name.subst st.subst)) := by
  unfold freshen at h
  rw [FreshenM.bind_subst_eq_ok_iff] at h
  obtain ⟨f', hf, rfl⟩ := bind_pure_eq_ok_iff.1 h
  exact ⟨f', hf, rfl⟩

/-- A kernel stays a kernel. -/
theorem Exp.kernel_freshen_eq_ok {k : Kernel} {e' : Exp}
    (h : (Exp.kernel k).freshen st = .ok e' st') :
    ∃ k', k.freshen st = .ok k' st' ∧ e' = .kernel k' := by
  unfold freshen at h
  obtain ⟨k', hk, rfl⟩ := bind_pure_eq_ok_iff.1 h
  exact ⟨k', hk, rfl⟩

/-- What a body yields is only read. -/
theorem Body.yield_freshen_eq_ok {values : List Operand} {b' : Body}
    (h : (Body.yield values).freshen st = .ok b' st') :
    b' = .yield (values.map (Operand.subst st.subst)) ∧ st' = st := by
  unfold freshen at h
  rw [FreshenM.bind_subst_eq_ok_iff] at h
  obtain ⟨rfl, rfl⟩ := pure_eq_ok_iff.1 h
  exact ⟨rfl, rfl⟩

/-- The steps of a walk through a body that starts with a statement. -/
theorem Body.bind_freshen_steps {p : Pattern} {e : Exp} {rest b' : Body}
    (h : (Body.bind p e rest).freshen st = .ok b' st') :
    ∃ e' p' rest' s₁ s₂, e.freshen st = .ok e' s₁ ∧ FreshenM.binders p s₁ = .ok p' s₂ ∧
      rest.freshen s₂ = .ok rest' st' ∧ b' = .bind p' e' rest' := by
  unfold freshen at h
  obtain ⟨e', s₁, hexp, h⟩ := bind_eq_ok_iff.1 h
  obtain ⟨p', s₂, hpattern, h⟩ := bind_eq_ok_iff.1 h
  obtain ⟨rest', hrest, rfl⟩ := bind_pure_eq_ok_iff.1 h
  exact ⟨e', p', rest', s₁, s₂, hexp, hpattern, hrest, rfl⟩

/-- A statement keeps its pattern, and its expression is walked through from no replacements. -/
theorem Stm.freshen_eq_ok {s s' : Stm} {supply supply' : Supply}
    (h : s.freshen supply = .ok s' supply') :
    ∃ e' st', s.exp.freshen ⟨[], supply⟩ = .ok e' st' ∧ s' = ⟨s.pattern, e'⟩ ∧
      supply' = st'.supply := by
  unfold freshen at h
  split at h
  · rename_i e' st' hexp
    obtain ⟨rfl, rfl⟩ := h
    exact ⟨e', st', hexp, rfl, rfl⟩
  · cases h

/-! ### One constructor at a time -/

/-- A walk over a piece of syntax has given fresh names to all its binders. Of the old names free
afterwards each was free before or is one of the binders', and none was replaced before the walk. -/
structure Freshens (st : Freshening) (binders : List Binder) (free free' : NameSet)
    (st' : Freshening) : Prop where
  replaces : Replaces st (Pattern.names binders) st'
  old : ∀ lo n, st.Above lo → n.tag < lo → n ∈ free' →
    n ∉ st.subst.names ∧ (n ∈ free ∨ n ∈ Pattern.names binders)

/-- An operation that is read. -/
theorem Op.freshens {o : Op} : Freshens st [] o.free (o.subst st.subst).free st where
  replaces := .refl
  old lo n hlo hn hmem := by
    rw [free, NameSet.mem_ofList, mentions_subst, mem_map_subst_iff hlo.subst hn] at hmem
    exact ⟨hmem.2, Or.inl (NameSet.mem_ofList.2 hmem.1)⟩

/-- An update that is read. -/
theorem Exp.update_freshens {checks : List Name} {source : Name} {indices : List Operand}
    {value : Operand} :
    Freshens st [] (Exp.update checks source indices value).free
      (Exp.update (checks.map (Name.subst st.subst)) (source.subst st.subst)
        (indices.map (Operand.subst st.subst)) (value.subst st.subst)).free st where
  replaces := .refl
  old lo n hlo hn hmem := by
    rw [free, NameSet.mem_ofList, Operand.names_concat_subst, ← List.map_cons, ← List.map_append,
      mem_map_subst_iff hlo.subst hn] at hmem
    exact ⟨hmem.2, Or.inl (NameSet.mem_ofList.2 hmem.1)⟩

/-- A carried value after a walk has a new parameter, and its initial value was read before. -/
theorem Merge.of_mem_zipWith {params : List Binder} {merge : List Merge} {τ : Subst} {m' : Merge}
    (h : m' ∈ params.zipWith Merge.mk (merge.map (·.init.subst τ))) :
    m'.param ∈ params ∧ ∃ m ∈ merge, m'.init = m.init.subst τ := by
  rw [← List.map_uncurry_zip_eq_zipWith] at h
  obtain ⟨⟨b, v⟩, hzip, rfl⟩ := List.mem_map.1 h
  obtain ⟨hb, hv⟩ := List.of_mem_zip hzip
  obtain ⟨m, hm, rfl⟩ := List.mem_map.1 hv
  exact ⟨hb, m, hm, rfl⟩

/-- The case of a loop, given that of its body. -/
theorem Loop.freshens_of_body {l l' : Loop} (h : l.freshen st = .ok l' st')
    (hbody : ∀ s, l.body.freshen s = .ok l'.body st' →
      Freshens s l.body.binders l.body.free l'.body.free st') :
    Freshens st l.binders l.free l'.free st' := by
  obtain ⟨params, s₁, s₂, hparams, hform, hrest, -, hmerge⟩ := freshen_steps h
  have hmerge : ∀ m' ∈ l'.merge, m'.param ∈ params ∧
      ∃ m ∈ l.merge, m'.init = m.init.subst st.subst := fun m' hm' =>
    Merge.of_mem_zipWith (hmerge ▸ hm')
  obtain ⟨hreplaces₁, hdims⟩ := FreshenM.binders_replaces hparams
  obtain ⟨hreplaces₂, hbounds⟩ := FreshenM.form_replaces hform
  have hbody := hbody s₂ hrest
  have hreplaces := (hreplaces₁.trans hreplaces₂).trans hbody.replaces
  constructor
  · refine hreplaces.subset fun n hn => ?_
    rw [List.mem_append, List.mem_append, names_params, or_assoc]
    exact mem_names_binders.1 hn
  · intro lo n hlo hn hmem
    have hlo₁ := hreplaces₁.above lo hlo
    have hlo₂ := hreplaces₂.above lo hlo₁
    rw [mem_names_binders, Loop.mem_free]
    rcases Loop.mem_free.1 hmem with ⟨hinside | hinside, -⟩ | ⟨m', hm', hinit⟩ | hbound
    · -- What the body reads after the walk is none of what the loop binds for it.
      obtain ⟨hnot, hold⟩ := hbody.old lo n hlo₂ hn hinside
      obtain ⟨hnot₁, hform⟩ := hreplaces₂.not_mem hnot
      obtain ⟨hnot, hparam⟩ := hreplaces₁.not_mem hnot₁
      rw [names_params] at hparam
      refine ⟨hnot, ?_⟩
      rcases hold with hfree | hbinder
      · exact Or.inl (Or.inl ⟨Or.inl hfree, hform, hparam⟩)
      · exact Or.inr (Or.inr (Or.inr hbinder))
    · -- A size in the type of a carried value may mention one that is bound later.
      have hinside : n ∈ Pattern.dimNames params := by
        obtain ⟨b, hb, hdim⟩ := Pattern.mem_dimNames.1 hinside
        obtain ⟨m', hm', rfl⟩ := List.mem_map.1 hb
        exact Pattern.mem_dimNames.2 ⟨_, (hmerge m' hm').1, hdim⟩
      obtain ⟨hdim, hnot⟩ := hdims lo n hlo hn hinside
      refine ⟨hnot, ?_⟩
      by_cases hparam : n ∈ l.names
      · exact Or.inr (Or.inl hparam)
      · by_cases hindex : n ∈ Pattern.names l.form.binders
        · exact Or.inr (Or.inr (Or.inl hindex))
        · exact Or.inl (Or.inl ⟨Or.inr hdim, hindex, hparam⟩)
    · -- Initial values are read before anything is replaced, and the bound before the index is.
      obtain ⟨-, m, hm, hsubst⟩ := hmerge m' hm'
      rw [hsubst, Operand.subst_eq_var_iff hlo.subst hn] at hinit
      exact ⟨hinit.2, Or.inl (Or.inr (Or.inl ⟨m, hm, hinit.1⟩))⟩
    · rw [hbounds, Operand.var_mem_map_subst_iff hlo₁.subst hn] at hbound
      exact ⟨(hreplaces₁.not_mem hbound.2).1, Or.inl (Or.inr (Or.inr hbound.1))⟩

/-- The case of a function, given that of its body. -/
theorem Lambda.freshens_of_body {f f' : Lambda} (h : f.freshen st = .ok f' st')
    (hbody : ∀ s, f.body.freshen s = .ok f'.body st' →
      Freshens s f.body.binders f.body.free f'.body.free st') :
    Freshens st f.binders f.free f'.free st' := by
  obtain ⟨s₁, s₂, hindex, hparams, hrest, hreturns⟩ := freshen_eq_ok h
  have hreplaces₁ := FreshenM.replace_replaces hindex
  obtain ⟨hreplaces₂, hdims⟩ := FreshenM.binders_replaces hparams
  have hbody := hbody s₂ hrest
  have hreplaces := (hreplaces₁.trans hreplaces₂).trans hbody.replaces
  constructor
  · refine hreplaces.subset fun n hn => ?_
    rw [List.mem_append, List.mem_append, List.mem_singleton, or_assoc]
    exact mem_names_binders.1 hn
  · intro lo n hlo hn hmem
    have hlo₁ := hreplaces₁.above lo hlo
    have hlo₂ := hreplaces₂.above lo hlo₁
    rw [mem_names_binders, Lambda.mem_free]
    obtain ⟨hinside | hinside | hinside, -⟩ := Lambda.mem_free.1 hmem
    · -- What the body reads is neither the index nor a parameter, for these have been replaced.
      obtain ⟨hnot, hold⟩ := hbody.old lo n hlo₂ hn hinside
      obtain ⟨hnot₁, hparam⟩ := hreplaces₂.not_mem hnot
      obtain ⟨hnot, hindex⟩ := hreplaces₁.not_mem hnot₁
      refine ⟨hnot, ?_⟩
      rcases hold with hfree | hbinder
      · exact Or.inl ⟨Or.inl hfree, fun heq => hindex (List.mem_singleton.2 heq), hparam⟩
      · exact Or.inr (Or.inr (Or.inr hbinder))
    · -- A size in the type of a parameter may mention a parameter further on.
      obtain ⟨hdim, hnot₁⟩ := hdims lo n hlo₁ hn hinside
      obtain ⟨hnot, hindex⟩ := hreplaces₁.not_mem hnot₁
      refine ⟨hnot, ?_⟩
      by_cases hparam : n ∈ Pattern.names f.params
      · exact Or.inr (Or.inr (Or.inl hparam))
      · exact Or.inl ⟨Or.inr (Or.inl hdim), fun heq => hindex (List.mem_singleton.2 heq), hparam⟩
    · -- The types of the results are read last, when all binders have been replaced.
      rw [hreturns] at hinside
      obtain ⟨ty', hty', hdim⟩ := List.mem_flatMap.1 hinside
      obtain ⟨ty, hty, rfl⟩ := List.mem_map.1 hty'
      rw [Ty.mem_dimNames, Ty.var_mem_dims_subst_iff (hreplaces.above lo hlo).subst hn] at hdim
      obtain ⟨hnot, hbound⟩ := hreplaces.not_mem hdim.2
      rw [List.mem_append, List.mem_append, List.mem_singleton, not_or, not_or] at hbound
      refine ⟨hnot, Or.inl ⟨Or.inr (Or.inr ?_), hbound.1⟩⟩
      exact List.mem_flatMap.2 ⟨ty, hty, Ty.mem_dimNames.2 hdim.1⟩

/-- A kernel before and after a walk over it. Each part was read when the names in front of it had
been replaced. -/
structure Kernel.Freshened (k : Kernel) (st : Freshening) (k' : Kernel) (st' : Freshening) :
    Prop where
  checks : k'.checks = k.checks.map (Name.subst st.subst)
  width : k'.width = k.width.subst st.subst
  space : List.Forall₂ (fun a a' => ∃ s, Replaces st [] s ∧ a'.size = a.size.subst s.subst)
    k.space k'.space
  inputs : List.Forall₂ (fun i i' => i'.array = i.array.subst st.subst ∧
      ∃ s, Replaces st (k.space.map (·.index)) s ∧ i'.param.ty = i.param.ty.subst s.subst ∧
        i'.indices = i.indices.map (Operand.subst s.subst)) k.inputs k'.inputs
  returns : k'.returns = k.returns.map fun o => { o with ty := o.ty.subst st'.subst }
  body : ∃ s, Replaces st k.names s ∧ Freshens s k.body.binders k.body.free k'.body.free st'

/-- The parts of a kernel after a walk, given what the walk does to the body. -/
theorem Kernel.freshened_of_freshen_eq_ok {k k' : Kernel} (h : k.freshen st = .ok k' st')
    (hbody : ∀ s, k.body.freshen s = .ok k'.body st' →
      Freshens s k.body.binders k.body.free k'.body.free st') :
    k.Freshened st k' st' := by
  obtain ⟨s₁, s₂, s₃, hspace, hthread, hinputs, hrest, hchecks, hwidth, hreturns⟩ :=
    freshen_steps h
  -- A size is read in the scope of the indices before it, a parameter in that of the thread too.
  obtain ⟨hreplaces₁, hsizes⟩ := FreshenM.mapM_replaces (d := fun a : Axis => [a.index])
    (R := fun s a a' => a'.size = a.size.subst s.subst)
    (fun _ _ _ _ => FreshenM.axis_replaces) hspace
  have hreplaces₂ := FreshenM.replace_replaces hthread
  obtain ⟨hreplaces₃, hparams⟩ := FreshenM.mapM_replaces
    (d := fun i : KernelInput × Name => [i.1.param.name])
    (R := fun s i i' => i'.param.ty = i.1.param.ty.subst s.subst ∧ i'.array = i.2 ∧
      i'.indices = i.1.indices.map (Operand.subst s.subst))
    (fun _ _ _ _ => FreshenM.input_replaces) hinputs
  rw [← List.map_eq_flatMap] at hreplaces₁
  refine ⟨hchecks, hwidth, hsizes, ?_, hreturns, s₃, ?_, hbody s₃ hrest⟩
  · rw [List.forall₂_map_left_iff] at hparams
    refine hparams.imp ?_
    rintro i i' ⟨s, hs, hty, harray, hi⟩
    refine ⟨harray, s, ?_, hty, hi⟩
    exact ((hreplaces₁.trans hreplaces₂).trans hs).subset fun n hn => by simp [hn]
  · refine ((hreplaces₁.trans hreplaces₂).trans hreplaces₃).subset fun n hn => ?_
    simp only [names, List.mem_append, List.mem_cons, List.mem_map, List.mem_flatMap,
      List.not_mem_nil, or_false] at hn ⊢
    grind

namespace Kernel.Freshened

variable {k k' : Kernel}

/-- All names that a kernel binds are replaced. -/
theorem replaces (h : k.Freshened st k' st') : Replaces st (Pattern.names k.binders) st' := by
  obtain ⟨s, hs, hbody⟩ := h.body
  refine (hs.trans hbody.replaces).subset fun n hn => ?_
  exact List.mem_append.2 (mem_names_binders.1 hn)

/-- An old name that is a size of the iteration space was one before. -/
theorem old_size (h : k.Freshened st k' st') (hlo : st.Above lo) (hn : n.tag < lo) {a' : Axis}
    (ha' : a' ∈ k'.space) (hsize : a'.size = .var n) :
    (∃ a ∈ k.space, a.size = .var n) ∧ n ∉ st.subst.names := by
  obtain ⟨a, ha, s, hs, heq⟩ := exists_of_mem_right h.space ha'
  rw [heq, Operand.subst_eq_var_iff (hs.above lo hlo).subst hn] at hsize
  exact ⟨⟨a, ha, hsize.1⟩, (hs.not_mem hsize.2).1⟩

/-- An old name in the type of a parameter was there before. -/
theorem old_dim (h : k.Freshened st k' st') (hlo : st.Above lo) (hn : n.tag < lo)
    {i' : KernelInput} (hi' : i' ∈ k'.inputs) (hdim : .var n ∈ i'.param.ty.dims) :
    (∃ i ∈ k.inputs, .var n ∈ i.param.ty.dims) ∧ n ∉ st.subst.names := by
  obtain ⟨i, hi, -, s, hs, hty, -⟩ := exists_of_mem_right h.inputs hi'
  rw [hty, Ty.var_mem_dims_subst_iff (hs.above lo hlo).subst hn] at hdim
  exact ⟨⟨i, hi, hdim.1⟩, (hs.not_mem hdim.2).1⟩

/-- An old name that is an index of a parameter was one before, and the iteration space does not
bind it. -/
theorem old_index (h : k.Freshened st k' st') (hlo : st.Above lo) (hn : n.tag < lo)
    {i' : KernelInput} (hi' : i' ∈ k'.inputs) (hindex : .var n ∈ i'.indices) :
    (∃ i ∈ k.inputs, .var n ∈ i.indices) ∧ n ∉ st.subst.names ∧ n ∉ k.space.map (·.index) := by
  obtain ⟨i, hi, -, s, hs, -, hindices⟩ := exists_of_mem_right h.inputs hi'
  rw [hindices, Operand.var_mem_map_subst_iff (hs.above lo hlo).subst hn] at hindex
  exact ⟨⟨i, hi, hindex.1⟩, hs.not_mem hindex.2⟩

/-- An old name in the type of a result was there before. -/
theorem old_return (h : k.Freshened st k' st') (hlo : st.Above lo) (hn : n.tag < lo)
    {o' : KernelOutput} (ho' : o' ∈ k'.returns) (hdim : .var n ∈ o'.ty.dims) :
    (∃ o ∈ k.returns, .var n ∈ o.ty.dims) ∧ n ∉ st.subst.names := by
  rw [h.returns] at ho'
  obtain ⟨o, ho, rfl⟩ := List.mem_map.1 ho'
  rw [Ty.var_mem_dims_subst_iff (h.replaces.above lo hlo).subst hn] at hdim
  exact ⟨⟨o, ho, hdim.1⟩, (h.replaces.not_mem hdim.2).1⟩

/-- An old name that the kernel mentions was mentioned before. -/
theorem old_mention (h : k.Freshened st k' st') (hlo : st.Above lo) (hn : n.tag < lo)
    (hm : k'.Mentions n) : k.Mentions n ∧ n ∉ st.subst.names := by
  unfold Kernel.Mentions
  rcases hm with hcheck | hwidth | ⟨a', ha', hsize⟩ | ⟨i', hi', harray | hdim⟩ | ⟨o', ho', hdim⟩
  · rw [h.checks, mem_map_subst_iff hlo.subst hn] at hcheck
    exact ⟨Or.inl hcheck.1, hcheck.2⟩
  · rw [h.width, Operand.subst_eq_var_iff hlo.subst hn] at hwidth
    exact ⟨Or.inr (Or.inl hwidth.1), hwidth.2⟩
  · obtain ⟨hsize, hnot⟩ := h.old_size hlo hn ha' hsize
    exact ⟨Or.inr (Or.inr (Or.inl hsize)), hnot⟩
  · obtain ⟨i, hi, heq, -⟩ := exists_of_mem_right h.inputs hi'
    rw [heq, Name.subst_eq_iff hlo.subst hn] at harray
    exact ⟨Or.inr (Or.inr (Or.inr (Or.inl ⟨i, hi, Or.inl harray.1⟩))), harray.2⟩
  · obtain ⟨⟨i, hi, hdim⟩, hnot⟩ := h.old_dim hlo hn hi' hdim
    exact ⟨Or.inr (Or.inr (Or.inr (Or.inl ⟨i, hi, Or.inr hdim⟩))), hnot⟩
  · obtain ⟨hdim, hnot⟩ := h.old_return hlo hn ho' hdim
    exact ⟨Or.inr (Or.inr (Or.inr (Or.inr hdim))), hnot⟩

/-- An old name that the body reads was read before, or is bound inside the body; it is none of
those that the kernel binds for its body. -/
theorem old_body (h : k.Freshened st k' st') (hlo : st.Above lo) (hn : n.tag < lo)
    (hmem : n ∈ k'.body.free) :
    (n ∈ k.body.free ∨ n ∈ Pattern.names k.body.binders) ∧ n ∉ st.subst.names ∧ n ∉ k.names := by
  obtain ⟨s, hs, hbody⟩ := h.body
  obtain ⟨hnot, hold⟩ := hbody.old lo n (hs.above lo hlo) hn hmem
  exact ⟨hold, hs.not_mem hnot⟩

/-- The case of a kernel. -/
theorem freshens (h : k.Freshened st k' st') : Freshens st k.binders k.free k'.free st' where
  replaces := h.replaces
  old lo n hlo hn hmem := by
    rw [mem_names_binders, Kernel.mem_free]
    obtain ⟨hinside | hinside | ⟨i', hi', hindex⟩, -⟩ := Kernel.mem_free.1 hmem
    · obtain ⟨hfree | hbinder, hnot, hown⟩ := h.old_body hlo hn hinside
      · exact ⟨hnot, Or.inl ⟨Or.inl hfree, hown⟩⟩
      · exact ⟨hnot, Or.inr (Or.inr hbinder)⟩
    · -- The kernel was free to mention one of the names it binds, before those were replaced.
      obtain ⟨hmention, hnot⟩ := h.old_mention hlo hn hinside
      by_cases hown : n ∈ k.names
      · exact ⟨hnot, Or.inr (Or.inl hown)⟩
      · exact ⟨hnot, Or.inl ⟨Or.inr (Or.inl hmention), hown⟩⟩
    · obtain ⟨hindex, hnot, -⟩ := h.old_index hlo hn hi' hindex
      by_cases hown : n ∈ k.names
      · exact ⟨hnot, Or.inr (Or.inl hown)⟩
      · exact ⟨hnot, Or.inl ⟨Or.inr (Or.inr hindex), hown⟩⟩

/-- What is regular stays regular: fresh names are none of the nest's. -/
theorem regular {bound : NameSet} (h : k.Freshened st k' st') (hlo : st.Above lo)
    (hbound : ∀ n ∈ bound, n.tag < lo) (hk : k.Regular bound) : k'.Regular bound where
  inputs i' hi' n hdim hn := by
    obtain ⟨⟨i, hi, hdim⟩, -⟩ := h.old_dim hlo (hbound n hn) hi' hdim
    exact hk.inputs i hi n hdim hn
  returns o' ho' n hdim hn := by
    obtain ⟨⟨o, ho, hdim⟩, -⟩ := h.old_return hlo (hbound n hn) ho' hdim
    exact hk.returns o ho n hdim hn
  space a' ha' n hsize hn := by
    obtain ⟨⟨a, ha, hsize⟩, -⟩ := h.old_size hlo (hbound n hn) ha' hsize
    exact hk.space a ha n hsize hn

end Kernel.Freshened

/-! ### The whole walk -/

/-- The case of a body that yields. -/
theorem Body.yield_freshens {values : List Operand} :
    Freshens st [] (Body.yield values).free
      (Body.yield (values.map (Operand.subst st.subst))).free st where
  replaces := .refl
  old lo n hlo hn hmem := by
    rw [free, NameSet.mem_ofList, Operand.mem_names,
      Operand.var_mem_map_subst_iff hlo.subst hn] at hmem
    rw [free, NameSet.mem_ofList, Operand.mem_names]
    exact ⟨hmem.2, Or.inl hmem.1⟩

/-- The case of a body that binds, given those of its expression and of the rest. -/
theorem Body.bind_freshens {p p' : Pattern} {e e' : Exp} {rest rest' : Body}
    {s₁ s₂ : Freshening} (he : Freshens st e.binders e.free e'.free s₁)
    (hp : FreshenM.binders p s₁ = .ok p' s₂)
    (hrest : Freshens s₂ rest.binders rest.free rest'.free st') :
    Freshens st (Body.bind p e rest).binders (Body.bind p e rest).free
      (Body.bind p' e' rest').free st' := by
  obtain ⟨hreplaces, hdims⟩ := FreshenM.binders_replaces hp
  simp only [binders, free]
  constructor
  · refine ((he.replaces.trans hreplaces).trans hrest.replaces).subset fun n hn => ?_
    simp only [Pattern.names_append, List.mem_append] at hn ⊢
    grind
  · intro lo n hlo hn hmem
    have hlo₁ := he.replaces.above lo hlo
    simp only [Pattern.names_append, List.mem_append, NameSet.mem_union, NameSet.mem_sdiff,
      NameSet.mem_ofList] at hmem ⊢
    rcases hmem with (hmem | hmem) | ⟨hmem, -⟩
    · obtain ⟨hnot, hfree | hbinder⟩ := he.old lo n hlo hn hmem
      · exact ⟨hnot, Or.inl (Or.inl (Or.inl hfree))⟩
      · exact ⟨hnot, Or.inr (Or.inl (Or.inr hbinder))⟩
    · -- The types of the pattern are read after the walk over the expression.
      obtain ⟨hdim, hnot₁⟩ := hdims lo n hlo₁ hn hmem
      exact ⟨(he.replaces.not_mem hnot₁).1, Or.inl (Or.inl (Or.inr hdim))⟩
    · -- The rest is walked through last, when the pattern has been replaced.
      obtain ⟨hnot₂, hold⟩ := hrest.old lo n (hreplaces.above lo hlo₁) hn hmem
      obtain ⟨hnot₁, hown⟩ := hreplaces.not_mem hnot₂
      refine ⟨(he.replaces.not_mem hnot₁).1, ?_⟩
      rcases hold with hfree | hbinder
      · exact Or.inl (Or.inr ⟨hfree, hown⟩)
      · exact Or.inr (Or.inr hbinder)

/-- The case of a map, given that of its function. -/
theorem Exp.map_freshens {checks : List Name} {width : Operand} {f f' : Lambda} {arrays : List Name}
    (hf : Freshens st f.binders f.free f'.free st') :
    Freshens st (Exp.map checks width f arrays).binders (Exp.map checks width f arrays).free
      (Exp.map (checks.map (Name.subst st.subst)) (width.subst st.subst) f'
        (arrays.map (Name.subst st.subst))).free st' where
  replaces := hf.replaces
  old lo n hlo hn hmem := by
    have hmap : checks.map (Name.subst st.subst) ++ Operand.names [width.subst st.subst] ++
        arrays.map (Name.subst st.subst)
          = (checks ++ Operand.names [width] ++ arrays).map (Name.subst st.subst) := by
      rw [Operand.names_singleton_subst, List.map_append, List.map_append]
    rw [free, NameSet.mem_union, NameSet.mem_ofList, hmap] at hmem
    rw [free, NameSet.mem_union, NameSet.mem_ofList]
    rcases hmem with hmem | hmem
    · obtain ⟨hnot, hfree | hbinder⟩ := hf.old lo n hlo hn hmem
      · exact ⟨hnot, Or.inl (Or.inl hfree)⟩
      · exact ⟨hnot, Or.inr hbinder⟩
    · rw [mem_map_subst_iff hlo.subst hn] at hmem
      exact ⟨hmem.2, Or.inl (Or.inr hmem.1)⟩

mutual

/-- An old name free in an expression with fresh names was free before or is one of those bound
inside. -/
theorem Exp.freshens : ∀ {e e' : Exp} {st st' : Freshening}, e.freshen st = .ok e' st' →
    Freshens st e.binders e.free e'.free st'
  | .op o, e', st, st', h => by
    obtain ⟨rfl, rfl⟩ := Exp.op_freshen_eq_ok h
    simp only [Exp.binders, Exp.free]
    exact Op.freshens
  | .update checks source indices value, e', st, st', h => by
    obtain ⟨rfl, rfl⟩ := Exp.update_freshen_eq_ok h
    simp only [Exp.binders]
    exact Exp.update_freshens
  | .loop l, e', st, st', h => by
    obtain ⟨l', hl, rfl⟩ := Exp.loop_freshen_eq_ok h
    simp only [Exp.binders, Exp.free]
    exact Loop.freshens hl
  | .map checks width function arrays, e', st, st', h => by
    obtain ⟨function', hfunction, rfl⟩ := Exp.map_freshen_eq_ok h
    simp only [Exp.binders]
    exact Exp.map_freshens (Lambda.freshens hfunction)
  | .kernel k, e', st, st', h => by
    obtain ⟨k', hk, rfl⟩ := Exp.kernel_freshen_eq_ok h
    simp only [Exp.binders, Exp.free]
    exact (Kernel.freshened hk).freshens

/-- Old names that are free in a loop after the walk. -/
theorem Loop.freshens : ∀ {l l' : Loop} {st st' : Freshening}, l.freshen st = .ok l' st' →
    Freshens st l.binders l.free l'.free st'
  | ⟨_, _, _, _⟩, _, _, _, h => Loop.freshens_of_body h fun _ hbody => Body.freshens hbody

/-- Old names that are free in a function after the walk. -/
theorem Lambda.freshens : ∀ {f f' : Lambda} {st st' : Freshening},
    f.freshen st = .ok f' st' → Freshens st f.binders f.free f'.free st'
  | ⟨_, _, _, _⟩, _, _, _, h => Lambda.freshens_of_body h fun _ hbody => Body.freshens hbody

/-- What a walk over a kernel does to its parts. -/
theorem Kernel.freshened : ∀ {k k' : Kernel} {st st' : Freshening}, k.freshen st = .ok k' st' →
    k.Freshened st k' st'
  | ⟨_, _, _, _, _, _, _⟩, _, _, _, h =>
    Kernel.freshened_of_freshen_eq_ok h fun _ hbody => Body.freshens hbody

/-- Old names that are free in a body after the walk. -/
theorem Body.freshens : ∀ {b b' : Body} {st st' : Freshening}, b.freshen st = .ok b' st' →
    Freshens st b.binders b.free b'.free st'
  | .yield values, b', st, st', h => by
    obtain ⟨rfl, rfl⟩ := Body.yield_freshen_eq_ok h
    simp only [Body.binders]
    exact Body.yield_freshens
  | .bind pattern exp rest, b', st, st', h => by
    obtain ⟨exp', pattern', rest', s₁, s₂, hexp, hpattern, hrest, rfl⟩ := Body.bind_freshen_steps h
    exact Body.bind_freshens (Exp.freshens hexp) hpattern (Body.freshens hrest)

end

/-- The kernel that a statement binds takes fresh names; the statement binds it under the same names
as before. -/
theorem Stm.freshen_kernel_eq_ok {p : Pattern} {k : Kernel} {s : Stm} {supply supply' : Supply}
    (h : (⟨p, .kernel k⟩ : Stm).freshen supply = .ok s supply') :
    ∃ k' st', s = ⟨p, .kernel k'⟩ ∧ k.Freshened ⟨[], supply⟩ k' st' := by
  obtain ⟨e', st', hexp, rfl, -⟩ := freshen_eq_ok h
  obtain ⟨k', hk, rfl⟩ := Exp.kernel_freshen_eq_ok hexp
  exact ⟨k', _, rfl, Kernel.freshened hk⟩

end MapNest
