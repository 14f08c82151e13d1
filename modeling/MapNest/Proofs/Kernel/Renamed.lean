import MapNest.Proofs.Freshen.Alpha
import MapNest.Proofs.Kernel.Reduce
import MapNest.Proofs.Moves

/-!
# `MapNest.Proofs.Kernel.Renamed`: reducing does not look at names

Whether a kernel is reduced depends on which of its names are the same: the indices of its input and
those of its space, the array of its operation and its parameter, its result and the name bound to
the operation. Fresh names keep apart what was apart, so nothing changes for better or worse
(`Kernel.JustDoes.of_subst`, `Kernel.JustDoes.subst`). What takes the place of the kernel mentions
none of the names that are replaced, as long as the checks and the sizes that it asks for are known
outside the kernel (`Kernel.Renamable`). So it is the same operation (`Kernel.wholeOp?_subst`), with
fresh names or without (`Stm.reduce_freshen`).
-/

set_option autoImplicit false

namespace MapNest

variable {σ : Subst}

/-! ### Under a substitution -/

namespace Op

variable {o : Op}

/-- The array that an operation works on is replaced like any other name. -/
theorem array?_subst : (o.subst σ).array? = o.array?.map (Name.subst σ) := by
  cases o <;> rfl

/-- An operation mentions the array that it works on. -/
theorem mem_mentions_of_array? {m : Name} (h : o.array? = some m) : m ∈ o.mentions := by
  cases o with
  | rearrange checks perm array =>
    cases h
    exact List.mem_append_right _ (List.mem_singleton_self _)
  | reshape checks shape array =>
    cases h
    exact List.mem_append_right _ (List.mem_singleton_self _)
  | copy array =>
    cases h
    exact List.mem_singleton_self _
  | _ => cases h

/-- Without replacements an operation stays as it is. -/
theorem subst_nil : o.subst [] = o := by
  have hname : Name.subst [] = id := rfl
  have hoperand : Operand.subst [] = id := funext fun v => Operand.subst_nil
  have hdim : NewDim.subst [] = id := funext fun d => by cases d <;> simp [NewDim.subst]
  cases o <;> simp [subst, hname, hoperand, hdim]

/-- An operation stays as it is if all that it mentions does. -/
theorem subst_eq_self (h : ∀ n ∈ o.mentions, n.subst σ = n) : o.subst σ = o :=
  (subst_congr h).trans subst_nil

/-- Names do not matter for the numbers of dimensions. -/
theorem countable_subst {outer : Nat} : (o.subst σ).Countable outer ↔ o.Countable outer := by
  cases o <;> rfl

/-- Doing an operation on the whole array and replacing names go together in either order. -/
theorem onAll_subst {checks : List Name} {outer : List Operand} {array m : Name}
    (ho : o.array? = some m) :
    (o.subst σ).onAll (checks.map (Name.subst σ)) (outer.map (Operand.subst σ)) (array.subst σ)
      = (o.onAll checks outer array).subst σ := by
  cases o with
  | rearrange checks' perm _ => simp [subst, onAll]
  | reshape checks' shape _ =>
    simp [subst, onAll, NewDim.subst, Function.comp_def]
  | copy _ => rfl
  | _ => cases ho

end Op

namespace Kernel

variable {k : Kernel} {input : KernelInput} {inner : Op}

/-- The checks of a replaced kernel are the replaced checks. -/
theorem checks_subst : (k.subst σ).checks = k.checks.map (Name.subst σ) := by
  cases k
  rfl

/-- The iteration space of a replaced kernel is the replaced space. -/
theorem space_subst : (k.subst σ).space = k.space.map (Axis.subst σ) := by
  cases k
  rfl

/-- The parameters of a replaced kernel are the replaced parameters. -/
theorem inputs_subst : (k.subst σ).inputs = k.inputs.map (KernelInput.subst σ) := by
  cases k
  rfl

/-- The body of a replaced kernel is the replaced body. -/
theorem body_subst : (k.subst σ).body = k.body.subst σ := by
  cases k
  rfl

/-- The sizes of the replaced iteration space are the replaced sizes. -/
theorem sizes_subst :
    (k.subst σ).space.map (·.size) = (k.space.map (·.size)).map (Operand.subst σ) := by
  rw [space_subst, List.map_map, List.map_map]
  rfl

/-- The indices of the replaced iteration space are the replaced indices. -/
theorem indices_subst :
    (k.subst σ).space.map (fun a => Operand.var a.index)
      = (k.space.map fun a => .var a.index).map (Operand.subst σ) := by
  rw [space_subst, List.map_map, List.map_map]
  rfl

/-- A kernel that just does an operation does so under any substitution. -/
theorem JustDoes.subst (h : k.JustDoes input inner) :
    (k.subst σ).JustDoes (input.subst σ) (inner.subst σ) where
  inputs := by rw [inputs_subst, h.inputs, List.map_singleton]
  indices := by
    rw [indices_subst, ← h.indices]
    rfl
  body := by
    obtain ⟨b, hbody⟩ := h.body
    exact ⟨b.subst σ, by rw [body_subst, hbody]; rfl⟩
  array := by
    rw [Op.array?_subst, h.array]
    rfl

end Kernel

/-! ### Names that are kept apart -/

section InjOn

variable {S : Set Name}

/-- A substitution that keeps names apart keeps operands apart. -/
theorem Operand.subst_injOn (hinj : Set.InjOn (Name.subst σ) S) {v w : Operand}
    (hv : ∀ n, v = .var n → n ∈ S) (hw : ∀ n, w = .var n → n ∈ S) (h : v.subst σ = w.subst σ) :
    v = w := by
  cases v with
  | const c =>
    cases w with
    | const d => exact h
    | var m => cases h
  | var n =>
    cases w with
    | const d => cases h
    | var m =>
      cases hinj (hv n rfl) (hw m rfl) (Operand.var.inj h)
      rfl

/-- A substitution that keeps names apart keeps lists of operands apart. -/
theorem Operand.map_subst_injOn (hinj : Set.InjOn (Name.subst σ) S) {vs ws : List Operand}
    (hvs : ∀ n, .var n ∈ vs → n ∈ S) (hws : ∀ n, .var n ∈ ws → n ∈ S)
    (h : vs.map (Operand.subst σ) = ws.map (Operand.subst σ)) : vs = ws := by
  rw [← List.forall₂_eq_eq_eq, List.forall₂_map_left_iff, List.forall₂_map_right_iff] at h
  rw [← List.forall₂_eq_eq_eq]
  refine forall₂_imp_of_mem h fun v hv w hw heq => ?_
  exact subst_injOn hinj (fun n hn => hvs n (hn ▸ hv)) (fun n hn => hws n (hn ▸ hw)) heq

/-- A body that comes to a single operation under a substitution is one. -/
theorem Body.of_subst_eq_bind (hinj : Set.InjOn (Name.subst σ) S) {body : Body}
    (hmentions : ∀ n ∈ body.mentions, n ∈ S) (hbinders : ∀ n ∈ Pattern.names body.binders, n ∈ S)
    {b' : Binder} {o' : Op}
    (h : body.subst σ = .bind [b'] (.op o') (.yield [.var b'.name])) :
    ∃ b o, body = .bind [b] (.op o) (.yield [.var b.name]) ∧ o.subst σ = o' := by
  cases body with
  | yield values => cases h
  | bind pattern exp rest =>
    simp only [Body.subst, Body.bind.injEq] at h
    obtain ⟨hpattern, hexp, hrest⟩ := h
    obtain ⟨b, rfl, rfl⟩ := List.map_eq_singleton_iff.1 hpattern
    cases exp with
    | op o =>
      cases rest with
      | yield values =>
        simp only [Exp.subst, Exp.op.injEq] at hexp
        simp only [Body.subst, Body.yield.injEq] at hrest
        obtain ⟨v, rfl, hv⟩ := List.map_eq_singleton_iff.1 hrest
        have hvar : v = .var b.name := by
          refine Operand.subst_injOn hinj (fun n hn => hmentions n ?_) (fun n hn => ?_) hv
          · simp [Body.mentions, Operand.mem_names, hn]
          · cases hn
            exact hbinders _ (by simp [Body.binders, Pattern.names])
        exact ⟨b, o, by rw [hvar], hexp⟩
      | bind pattern' exp' rest' => cases hrest
    | _ => cases hexp

variable {k : Kernel} {input' : KernelInput} {inner' : Op}

/-- If a substitution keeps the names of a kernel apart, the kernel just does an operation if it
does so under the substitution. -/
theorem Kernel.JustDoes.of_subst (hinj : Set.InjOn (Name.subst σ) S)
    (hmentions : ∀ n ∈ k.mentions, n ∈ S) (hbinders : ∀ n ∈ Pattern.names k.binders, n ∈ S)
    (h : (k.subst σ).JustDoes input' inner') : ∃ input inner, k.JustDoes input inner := by
  have hnames : ∀ n ∈ k.names, n ∈ S := fun n hn =>
    hbinders n (Kernel.mem_names_binders.2 (Or.inl hn))
  obtain ⟨hinputs, hindices, ⟨b', hbody⟩, harray⟩ := h
  rw [inputs_subst] at hinputs
  obtain ⟨input, hinput, rfl⟩ := List.map_eq_singleton_iff.1 hinputs
  have hmem : input ∈ k.inputs := hinput ▸ List.mem_singleton_self _
  rw [body_subst] at hbody
  obtain ⟨b, inner, hsingle, rfl⟩ := Body.of_subst_eq_bind hinj
    (fun n hn => hmentions n (Kernel.mem_mentions.2 (Or.inl hn)))
    (fun n hn => hbinders n (Kernel.mem_names_binders.2 (Or.inr hn))) hbody
  refine ⟨input, inner, hinput, ?_, ⟨b, hsingle⟩, ?_⟩
  · rw [indices_subst] at hindices
    refine Operand.map_subst_injOn hinj (fun n hn => ?_) (fun n hn => ?_) hindices
    · exact hmentions n (Kernel.mem_mentions.2 (Or.inr (Or.inr ⟨input, hmem, hn⟩)))
    · obtain ⟨a, ha, heq⟩ := List.mem_map.1 hn
      cases heq
      exact hnames _ (List.mem_append_left _ (List.mem_cons_of_mem _ (List.mem_map_of_mem ha)))
  · rw [Op.array?_subst, Option.map_eq_some_iff] at harray
    obtain ⟨m, hm, heq⟩ := harray
    have hread : m ∈ k.mentions := by
      rw [Kernel.mem_mentions, hsingle]
      exact Or.inl (by simp [Body.mentions, Exp.mentions, Op.mem_mentions_of_array? hm])
    have hparam : input.param.name ∈ k.names :=
      List.mem_append_right _ (List.mem_map_of_mem hmem)
    rw [hm, hinj (hmentions m hread) (hnames _ hparam) heq]

end InjOn

/-! ### Reducing with fresh names and without -/

/-- A kernel binds every name once and uses it in its scope only. The sizes of its space are known
outside, and if its work is a single operation on its input, so is what this rests on and asks for.
All names have tags below that of the next fresh name. -/
structure Kernel.Renamable (next : Nat) (k : Kernel) : Prop where
  nodup : (Pattern.names k.binders).Nodup
  scope : k.InScope (.ofList (Pattern.names k.binders))
  sizes : ∀ a ∈ k.space, ∀ n, a.size = .var n → n ∉ Pattern.names k.binders
  inner : ∀ input inner, k.JustDoes input inner → ∀ n, n ∈ inner.checks ∨ .var n ∈ inner.sizes →
    n ∉ Pattern.names k.binders
  tags : ∀ n ∈ k.mentions ++ Pattern.names k.binders, n.tag < next

/-- The checks of a kernel and the arrays that it reads stand outside. -/
theorem Kernel.InScope.outside {k : Kernel} {hidden : NameSet} (h : k.InScope hidden) :
    ∀ n ∈ k.checks ++ k.inputs.map (·.array), n ∉ hidden := by
  obtain ⟨checks, width, thread, space, inputs, returns, body⟩ := k
  rw [InScope] at h
  intro n hn
  refine h.1 n ?_
  simp only [List.mem_append] at hn ⊢
  exact hn.imp_left Or.inl

namespace Kernel.Renamable

variable {next next' : Nat} {k : Kernel} {input : KernelInput} {inner : Op}

/-- What takes the place of the kernel mentions nothing that is bound inside. -/
theorem not_mem_binders (h : k.Renamable next) (hdoes : k.JustDoes input inner) {n : Name}
    (hn : n ∈ (inner.onAll k.checks (k.space.map (·.size)) input.array).mentions) :
    n ∉ Pattern.names k.binders := by
  have houtside : ∀ n ∈ k.checks ++ k.inputs.map (·.array), n ∉ Pattern.names k.binders :=
    fun n hn hbound => h.scope.outside n hn (NameSet.mem_ofList.2 hbound)
  rcases Op.mem_mentions_onAll hdoes.array hn with hcheck | hasked | hsize | rfl
  · exact houtside n (List.mem_append_left _ hcheck)
  · exact h.inner input inner hdoes n hasked
  · obtain ⟨a, ha, hsize⟩ := List.mem_map.1 hsize
    exact h.sizes a ha n hsize
  · refine houtside _ (List.mem_append_right _ (List.mem_map_of_mem ?_))
    exact hdoes.inputs ▸ List.mem_singleton_self _

/-- Fresh names change nothing about what takes the place of the kernel. -/
theorem wholeOp?_subst (h : k.Renamable next)
    (hσ : σ.GivesFresh (Pattern.names k.binders) next next') :
    (k.subst σ).wholeOp? = k.wholeOp? := by
  by_cases hdoes : ∃ input inner, k.JustDoes input inner
  · obtain ⟨input, inner, hdoes⟩ := hdoes
    have hlength : (k.subst σ).space.length = k.space.length := by
      rw [Kernel.space_subst, List.length_map]
    have hsame : (inner.subst σ).onAll (k.subst σ).checks ((k.subst σ).space.map (·.size))
        (input.subst σ).array = inner.onAll k.checks (k.space.map (·.size)) input.array := by
      have hstays : ∀ n ∈ (inner.onAll k.checks (k.space.map (·.size)) input.array).mentions,
          n.subst σ = n := fun n hn => hσ.stays n (h.not_mem_binders hdoes hn)
      rw [Kernel.checks_subst, Kernel.sizes_subst, KernelInput.subst,
        Op.onAll_subst hdoes.array, Op.subst_eq_self hstays]
    rw [hdoes.wholeOp?_eq, hdoes.subst.wholeOp?_eq, hsame, hlength]
    simp only [Op.countable_subst]
  · simp only [not_exists] at hdoes
    rw [Kernel.wholeOp?_eq_none hdoes, Kernel.wholeOp?_eq_none fun input inner hdoes' => ?_]
    obtain ⟨input, inner, hdoes''⟩ := hdoes'.of_subst hσ.injOn
      (fun n hn => h.tags n (List.mem_append_left _ hn))
      fun n hn => h.tags n (List.mem_append_right _ hn)
    exact hdoes input inner hdoes''

end Kernel.Renamable

/-- A kernel is replaced by an operation just if this is the one on the whole array. -/
theorem Stm.exists_reduce_eq_op_iff {p q : Pattern} {k : Kernel} {o : Op} {st : Attempt} :
    (∃ st', Stm.reduce ⟨p, .kernel k⟩ st = .ok ⟨q, .op o⟩ st') ↔
      q = p ∧ k.wholeOp? = .ok (some o) := by
  rw [reduce_kernel]
  constructor
  · rintro ⟨st', h⟩
    split at h
    · next hop =>
      cases h
      exact ⟨rfl, hop⟩
    · cases h
    · cases h
  · rintro ⟨rfl, hop⟩
    exact ⟨_, by rw [hop]⟩

/-- A finished kernel is an operation just if kernels are reduced and this is the operation in the
place of the kernel with the names that it has by then. -/
theorem exists_finish_eq_op_iff {settings : Settings} {p q : Pattern} {k k' : Kernel} {o : Op}
    {st s : Attempt}
    (h : (if settings.freshenKernels then liftM (Stm.freshen ⟨p, .kernel k⟩)
      else pure ⟨p, .kernel k⟩ : AttemptM Stm) st = .ok ⟨p, .kernel k'⟩ s) :
    (∃ s', finish settings ⟨p, .kernel k⟩ st = .ok ⟨q, .op o⟩ s') ↔
      settings.reduceKernels = true ∧ q = p ∧ k'.wholeOp? = .ok (some o) := by
  have hrun : ∀ s', finish settings ⟨p, .kernel k⟩ st = .ok ⟨q, .op o⟩ s' ↔
      (if settings.reduceKernels then Stm.reduce ⟨p, .kernel k'⟩ else pure ⟨p, .kernel k'⟩) s
        = .ok ⟨q, .op o⟩ s' := by
    intro s'
    rw [finish_eq, bind_eq_ok_iff]
    constructor
    · rintro ⟨kernel, s₁, hkernel, hrest⟩
      cases h.symm.trans hkernel
      exact hrest
    · exact fun hrest => ⟨_, _, h, hrest⟩
  simp only [hrun]
  cases settings.reduceKernels with
  | true =>
    simp only [if_true, true_and]
    exact Stm.exists_reduce_eq_op_iff
  | false =>
    refine iff_of_false ?_ fun hfalse => Bool.false_ne_true hfalse.1
    rintro ⟨s', hs'⟩
    cases hs'

/-- If what is moved out of a nest ends with an operation, the kernel is finished as this. -/
theorem exists_distribute_eq_op_iff {settings : Settings} {nesting : Nesting} {targets : Targets}
    {stms : List Stm} {st s : Attempt} {planned : Planned} {flat : FlatKernel} {supply : Supply}
    {moved : Moved} {q : Pattern} {o : Op} (hne : stms ≠ [])
    (hplan : plan nesting targets stms st = .ok planned s)
    (hflat : planned.nest.flatten (.ofStms stms planned.results) s.supply = .ok flat supply)
    (hlast : moved.stms.getLast? = some ⟨q, .op o⟩) :
    (∃ st', distribute settings nesting targets stms st = .ok moved st') ↔
      (∃ s', finish settings flat.stm { s with supply } = .ok ⟨q, .op o⟩ s') ∧
        moved = ⟨planned.targets, flat.prelude ++ [⟨q, .op o⟩]⟩ := by
  rw [exists_distribute_eq_ok_iff hne hplan hflat]
  constructor
  · rintro ⟨kernel, s', hfinish, rfl⟩
    have hkernel : kernel = ⟨q, .op o⟩ := by simpa using hlast
    exact ⟨⟨s', hkernel ▸ hfinish⟩, by rw [hkernel]⟩
  · rintro ⟨⟨s', hfinish⟩, hmoved⟩
    exact ⟨_, s', hfinish, hmoved⟩

/-- Suppose that a kernel can be renamed. If there are tags enough, it gets fresh names, and then
reducing ends in the same way as without them: both kernels are kept, or the same operation takes
the place of both, or the dimensions cannot be counted. So if it is the kernel for some statements
that are moved out of a nest, they come to the same operation with fresh names and without. -/
theorem Stm.reduce_freshen {p : Pattern} {k : Kernel} {supply : Supply}
    (hk : k.Renamable supply.next) (hnext : supply.next ≤ Supply.lastTag) :
    (supply.next + k.binders.length ≤ Supply.lastTag →
      ∃ (k' : Kernel) (supply' : Supply),
        Stm.freshen ⟨p, .kernel k⟩ supply = .ok ⟨p, .kernel k'⟩ supply' ∧
        (∀ st st' : Attempt,
          (Stm.reduce ⟨p, .kernel k⟩ st = .ok ⟨p, .kernel k⟩ st ∧
            Stm.reduce ⟨p, .kernel k'⟩ st' = .ok ⟨p, .kernel k'⟩ st') ∨
          (∃ o, Stm.reduce ⟨p, .kernel k⟩ st
                = .ok ⟨p, .op o⟩ { st with log := st.log ++ [.reduced o] } ∧
              Stm.reduce ⟨p, .kernel k'⟩ st'
                = .ok ⟨p, .op o⟩ { st' with log := st'.log ++ [.reduced o] }) ∨
          Stm.reduce ⟨p, .kernel k⟩ st = .error (.failed .overflow) st ∧
            Stm.reduce ⟨p, .kernel k'⟩ st' = .error (.failed .overflow) st') ∧
        ∀ (settings : Settings) (nesting : Nesting) (targets : Targets) (stms : List Stm)
          (st s : Attempt) (planned : Planned) (flat : FlatKernel), stms ≠ [] →
          plan nesting targets stms st = .ok planned s →
          planned.nest.flatten (.ofStms stms planned.results) s.supply = .ok flat supply →
          flat.stm = ⟨p, .kernel k⟩ →
          ∀ (moved : Moved) (q : Pattern) (o : Op), moved.stms.getLast? = some ⟨q, .op o⟩ →
            ((∃ st', distribute { settings with freshenKernels := true } nesting targets stms st
                = .ok moved st') ↔
              ∃ st', distribute { settings with freshenKernels := false } nesting targets stms st
                = .ok moved st')) ∧
    (Supply.lastTag < supply.next + k.binders.length →
      Stm.freshen ⟨p, .kernel k⟩ supply = .error .overflow ⟨Supply.lastTag⟩) := by
  have hlength : (Exp.kernel k).binders.length = k.binders.length := by rw [Exp.binders]
  rcases (Stm.draws ⟨p, .kernel k⟩).cases hnext with
    ⟨hle, s', supply', h, -⟩ | ⟨hlt, supply', h, hnext'⟩
  · rw [hlength] at hle
    refine ⟨fun _ => ?_, fun hlt => by omega⟩
    obtain ⟨e', st', hexp, rfl, rfl⟩ := freshen_eq_ok h
    have hsubst : e' = .kernel (k.subst st'.subst) := by
      rw [Exp.eq_subst_of_freshen (by simpa only [Exp.binders] using hk.nodup)
        (by simpa only [Exp.binders, Exp.InScope] using hk.scope) hexp, Exp.subst]
    have hgives := (Exp.renews hexp).binds.givesFresh
    rw [Exp.binders] at hgives
    have hwhole := hk.wholeOp?_subst hgives
    subst hsubst
    refine ⟨_, _, h, fun st st'' => ?_, ?_⟩
    · simp only [reduce_kernel, hwhole]
      rcases k.wholeOp?_cases with ⟨hnone, -⟩ | ⟨input, inner, -, hop | ⟨hfails, -⟩⟩
      · rw [hnone]
        exact Or.inl ⟨rfl, rfl⟩
      · rw [hop]
        exact Or.inr (Or.inl ⟨_, rfl, rfl⟩)
      · rw [hfails]
        exact Or.inr (Or.inr ⟨rfl, rfl⟩)
    · intro settings nesting targets stms st s planned flat hne hplan hflat hstm moved q o hlast
      have hon : (∃ s', finish { settings with freshenKernels := true } ⟨p, .kernel k⟩
            { s with supply } = .ok ⟨q, .op o⟩ s') ↔
          settings.reduceKernels = true ∧ q = p ∧
            (k.subst st'.subst).wholeOp? = .ok (some o) :=
        exists_finish_eq_op_iff (AttemptM.liftM_eq_ok_iff.2 ⟨_, h, rfl⟩)
      have hoff : (∃ s', finish { settings with freshenKernels := false } ⟨p, .kernel k⟩
            { s with supply } = .ok ⟨q, .op o⟩ s') ↔
          settings.reduceKernels = true ∧ q = p ∧ k.wholeOp? = .ok (some o) :=
        exists_finish_eq_op_iff rfl
      rw [exists_distribute_eq_op_iff hne hplan hflat hlast,
        exists_distribute_eq_op_iff hne hplan hflat hlast, hstm, hon, hoff, hwhole]
  · rw [hlength] at hlt
    refine ⟨fun hle => by omega, fun _ => ?_⟩
    rw [h, ← hnext']

/-! A map that transposes each of two matrices:

    ys = map i < 2 (x <- xs):
      y = rearrange (1, 0) x
-/

namespace Turned

open Transposes (ints)

/-- The map. -/
def nesting : Nesting :=
  .single ⟨.ofList [⟨"y", 3⟩],
    ⟨[⟨⟨"ys", 4⟩, ints [2, 5, 4]⟩], [], .ofInt32 2, ⟨"i", 1⟩,
      [⟨⟨⟨"x", 2⟩, ints [4, 5]⟩, ⟨"xs", 0⟩⟩]⟩⟩

/-- What it produces. -/
def targets : Targets := .single [⟨⟨⟨"ys", 4⟩, ints [2, 5, 4]⟩, .var ⟨"y", 3⟩⟩]

/-- Its work. -/
def stms : List Stm := [.rearrange ⟨⟨"y", 3⟩, ints [5, 4]⟩ [1, 0] ⟨"x", 2⟩]

/-- The attempt to move it. -/
def attempt : Attempt := { supply := ⟨5⟩ }

/-- The plan for it. -/
def planned : Planned := ⟨[.var ⟨"y", 3⟩], .single [], .single nesting.inner.level⟩

/-- The kernel in its place. -/
def kernel : Kernel where
  checks := []
  width := .ofInt32 2
  thread := ⟨"global_thread_index", 5⟩
  space := [⟨⟨"i", 1⟩, .ofInt32 2⟩]
  inputs := [⟨⟨⟨"x", 2⟩, ints [4, 5]⟩, ⟨"xs", 0⟩, [.var ⟨"i", 1⟩]⟩]
  returns := [⟨ints [5, 4], [0]⟩]
  body := .ofStms stms [.var ⟨"y", 3⟩]

/-- What it is reduced to. -/
def moved : Moved :=
  ⟨.single [], [⟨[⟨⟨"ys", 4⟩, ints [2, 5, 4]⟩], .op (.rearrange [] [0, 2, 1] ⟨"xs", 0⟩)⟩]⟩

/-- The nest that is planned. -/
theorem plan_eq : plan nesting targets stms attempt = .ok planned attempt := rfl

/-- The kernel that is made of it. -/
theorem flatten_eq : planned.nest.flatten (.ofStms stms planned.results) attempt.supply
    = .ok ⟨[], ⟨[⟨⟨"ys", 4⟩, ints [2, 5, 4]⟩], .kernel kernel⟩⟩ ⟨6⟩ := rfl

/-- The kernel binds every name once, and in its scope, below the names to be drawn. -/
theorem renamable : kernel.Renamable 6 where
  nodup := by decide
  scope := by
    simp only [kernel, stms, Stm.rearrange, Stm.ofOp, Body.ofStms, List.foldr, Kernel.InScope,
      Body.InScope, Exp.InScope, InOrder, List.map]
    decide
  sizes a ha n hn := by
    cases List.mem_singleton.1 ha
    cases hn
  inner input inner h n hn := by
    obtain ⟨b, hbody⟩ := h.body
    cases hbody
    rcases hn with hn | hn <;> cases hn
  tags := by decide

/-- Without fresh names the kernel is reduced to a rearrangement of the whole array. -/
theorem distribute_eq : ∃ st', distribute { freshenKernels := false } nesting targets stms attempt
    = .ok moved st' := ⟨_, rfl⟩

end Turned

/-- With fresh names it is reduced to the same rearrangement. -/
theorem reduce_freshen_turned :
    Turned.kernel.Renamable 6 ∧
      ∃ st', distribute { freshenKernels := true } Turned.nesting Turned.targets Turned.stms
        Turned.attempt = .ok Turned.moved st' := by
  refine ⟨Turned.renamable, ?_⟩
  obtain ⟨k', supply', -, -, hmoves⟩ := (Stm.reduce_freshen
    (p := [⟨⟨"ys", 4⟩, Transposes.ints [2, 5, 4]⟩]) Turned.renamable (by decide)).1 (by decide)
  exact (hmoves {} Turned.nesting Turned.targets Turned.stms Turned.attempt Turned.attempt
    Turned.planned _ (List.cons_ne_nil _ _) Turned.plan_eq Turned.flatten_eq rfl Turned.moved _ _
    rfl).2 Turned.distribute_eq

end MapNest
