import MapNest.Proofs.Nest.Arranges

/-!
# `MapNest.Proofs.Nest.Builds`: what the levels of a kernel nest read

What a kernel nest reads does not depend on where its arrays stand. `Builds` is a derivation with
the same two rules as `Arranges`, but it knows little of how outputs are divided: what is kept and
what is taken comes from the target, and a level has an array as soon as the level inside has one.
`Selection.builds_of_kernelNest_eq_ok` gets it from a successful run, and what the levels built
demand and bind is proved by induction on it.
-/

set_option autoImplicit false

namespace MapNest

/-! ### The derivation of a nest -/

/-- The levels built for some maps around one another, the outermost first. Tags were drawn from
the first bound to below the second. -/
inductive Builds (s : Selection) (bound : NameSet) :
    List (Enclosing × Target) → Nat → Nat → Built → Prop
  /-- The innermost level takes over what is selected, and keeps the outputs set aside. -/
  | innermost {t : Target} {f : Frame} {captures : List Capture} {lo hi : Nat}
      (hbelow : ∀ n, n ∉ f.below)
      (hcarrier : ∀ n b, f.carrier? n = some b → ⟨b, n⟩ ∈ s.passed)
      (hpassed : ∀ p ∈ s.passed, p.output ∈ t)
      (htargets : ∀ o ∈ s.targets.inner, o ∈ t)
      (htarget : f.target = [])
      (hpattern : f.pattern = Target.pattern s.targets.inner)
      (hcloses : f.Closes bound ⟨s.free ∩ bound, s.consumed ∩ bound⟩ captures lo hi) :
      Builds s bound [(f.enclosing, t)] lo hi
        ⟨.single (f.closed ⟨s.free ∩ bound, s.consumed ∩ bound⟩ captures),
          .single (s.restore (captures.flatMap (·.added))),
          Demand.around ⟨s.free ∩ bound, s.consumed ∩ bound⟩
            (f.closed ⟨s.free ∩ bound, s.consumed ∩ bound⟩ captures)⟩
  /-- A level is put around those built so far, whose arrays are put into the order that the new
  level has them in. -/
  | enclose {within : List (Enclosing × Target)} {t : Target} {built : Built} {f : Frame}
      {captures : List Capture} {order : List Nat} {lo mid hi : Nat}
      (hwithin : Builds s bound within lo mid built)
      (hbelow : ∀ n, n ∈ f.below ↔ ∃ o ∈ built.targets.outermost, o.binder.name = n)
      (hcarrier : ∀ n, f.carrier? n = none)
      (htarget : ∀ o ∈ f.target, o ∈ t)
      (hpattern : ∀ b ∈ f.pattern, (∃ o ∈ t, o.binder = b) ∨
        ((∃ ty : Ty, b.ty = ty.arrayOf f.enclosing.level.width) ∧
          lo ≤ b.name.tag ∧ b.name.tag < hi))
      (hnonempty : f.pattern = [] → built.nest.outermost.pattern = [])
      (hcloses : f.Closes bound built.demand captures mid hi) :
      Builds s bound ((f.enclosing, t) :: within) lo hi
        ⟨(built.nest.map (Level.permute order)).pushOuter (f.closed built.demand captures),
          built.targets.pushOuter (f.target ++ captures.flatMap (·.added)),
          built.demand.around (f.closed built.demand captures)⟩

/-! ### What is added to the targets -/

/-- Closing a frame of a map adds an output to its target, with tags drawn between two bounds. -/
def Enclosing.Adds (e : Enclosing) (bound : NameSet) (lo hi : Nat) (o : Output) : Prop :=
  ∃ (f : Frame) (demand : Demand) (captures : List Capture) (lo' hi' : Nat),
    f.enclosing = e ∧ lo ≤ lo' ∧ hi' ≤ hi ∧ f.Closes bound demand captures lo' hi' ∧
      o ∈ captures.flatMap (·.added)

/-- What the captures of a closed frame add is added by its map. -/
theorem Frame.Closes.adds {f : Frame} {bound : NameSet} {demand : Demand}
    {captures : List Capture} {lo hi : Nat} (h : f.Closes bound demand captures lo hi) {o : Output}
    (ho : o ∈ captures.flatMap (·.added)) : f.enclosing.Adds bound lo hi o :=
  ⟨f, demand, captures, lo, hi, rfl, Nat.le_refl _, Nat.le_refl _, h, ho⟩

namespace Enclosing.Adds

variable {e : Enclosing} {bound : NameSet} {lo hi : Nat} {o : Output}

/-- What is added between two tags is added between any two tags that are further apart. -/
theorem mono (h : e.Adds bound lo hi o) {lo' hi' : Nat} (hlo : lo' ≤ lo) (hhi : hi ≤ hi') :
    e.Adds bound lo' hi' o := by
  obtain ⟨f, demand, captures, top, bottom, hmap, htop, hbottom, hcloses, ho⟩ := h
  exact ⟨f, demand, captures, top, bottom, hmap, Nat.le_trans hlo htop,
    Nat.le_trans hbottom hhi, hcloses, ho⟩

/-- The array of an output that is added is new. -/
theorem tag (h : e.Adds bound lo hi o) : lo ≤ o.binder.name.tag ∧ o.binder.name.tag < hi := by
  obtain ⟨f, demand, captures, top, bottom, -, htop, hbottom, hcloses, ho⟩ := h
  obtain ⟨c, hc, ho⟩ := List.mem_flatMap.1 ho
  have := hcloses.tag_of_mem_added hc ho
  omega

end Enclosing.Adds

namespace Builds

variable {s : Selection} {bound : NameSet} {levels : List (Enclosing × Target)} {lo hi : Nat}
  {built : Built}

/-- Building draws names in order, so the supply does not go back. -/
theorem le (h : Builds s bound levels lo hi built) : lo ≤ hi := by
  induction h with
  | innermost _ _ _ _ _ _ hcloses => exact hcloses.le
  | enclose _ _ _ _ _ _ hcloses ih => exact Nat.le_trans ih hcloses.le

/-- There is a target for each level built. -/
theorem depth_targets (h : Builds s bound levels lo hi built) :
    built.targets.depth = levels.length := by
  induction h with
  | innermost => rfl
  | enclose _ _ _ _ _ _ _ ih =>
    rw [← Stack.length_toList, Stack.toList_pushOuter, List.length_cons, Stack.length_toList, ih,
      List.length_cons]

/-- There is a level for each map. -/
theorem depth_nest (h : Builds s bound levels lo hi built) :
    built.nest.depth = levels.length := by
  induction h with
  | innermost => rfl
  | enclose _ _ _ _ _ _ _ ih =>
    rw [← Stack.length_toList, Stack.toList_pushOuter, List.length_cons, Stack.toList_map,
      List.length_map, Stack.length_toList, ih, List.length_cons]

/-- What a map left behind returns it returned before, or closing its level added it. -/
theorem outputs_added (h : Builds s bound levels lo hi built) :
    List.Forall₂ (fun x t => ∀ o ∈ t, o ∈ x.2 ∨ x.1.Adds bound lo hi o) levels
      built.targets.toList := by
  induction h with
  | @innermost t f captures lo hi _ _ hpassed _ _ _ hcloses =>
    refine .cons (fun o ho => ?_) .nil
    -- An output was added by a capture, or it was set aside and is what it was.
    rcases List.mem_append.1 ho with ho | ho
    · exact Or.inr (hcloses.adds ho)
    · obtain ⟨p, hp, rfl⟩ := List.mem_map.1 ho
      exact Or.inl (hpassed p hp)
  | @enclose within t built f captures order lo mid hi hwithin _ _ htarget _ _ hcloses ih =>
    rw [Stack.toList_pushOuter]
    refine .cons (fun o ho => ?_) (ih.imp fun x t hall o ho => ?_)
    · rcases List.mem_append.1 ho with ho | ho
      · exact Or.inl (htarget o ho)
      · exact Or.inr ((hcloses.adds ho).mono hwithin.le (Nat.le_refl _))
    · exact (hall o ho).imp_right fun hadds => hadds.mono (Nat.le_refl _) hcloses.le

/-- What a map left behind returns it returned before, or it returns it into a new array. -/
theorem outputs_origin (h : Builds s bound levels lo hi built) :
    List.Forall₂ (fun x t => ∀ o ∈ t, o ∈ x.2 ∨ (lo ≤ o.binder.name.tag ∧ o.binder.name.tag < hi))
      levels built.targets.toList :=
  h.outputs_added.imp fun _ _ hall o ho => (hall o ho).imp_right Enclosing.Adds.tag

/-- What the maps left behind bind was bound there before, or is new. -/
theorem mem_declared (h : Builds s bound levels lo hi built) {n : Name}
    (hn : n ∈ declared (retarget levels built.targets)) :
    n ∈ declared levels ∨ (lo ≤ n.tag ∧ n.tag < hi) := by
  obtain ⟨y, hy, hn⟩ := List.mem_flatMap.1 hn
  obtain ⟨x, hx, hmap, horigin⟩ := exists_of_mem_retarget h.outputs_origin hy
  rcases List.mem_append.1 hn with hn | hn
  · obtain ⟨o, ho, rfl⟩ := Target.mem_names_pattern.1 hn
    refine (horigin o ho).imp_left fun hold => List.mem_flatMap.2 ⟨x, hx, ?_⟩
    exact List.mem_append_left _ (Target.mem_names_pattern.2 ⟨o, hold, rfl⟩)
  · rw [← hmap] at hn
    exact Or.inl (List.mem_flatMap.2 ⟨x, hx, List.mem_append_right _ hn⟩)

end Builds

/-- The array that carries a name out of the innermost map is one of those that pass on a name. -/
theorem Selection.mem_passed_of_carrier?_eq_some {s : Selection} {n : Name} {b : Binder}
    (h : s.carrier? n = some b) : ⟨b, n⟩ ∈ s.passed := by
  obtain ⟨p, hp, rfl⟩ := Option.map_eq_some_iff.1 h
  have hname : p.name = n := by simpa using List.find?_some hp
  exact hname ▸ List.mem_of_find?_eq_some hp

/-- Levels that are arranged are built. -/
theorem Arranges.builds {scope : Scope} {s : Selection} {bound : NameSet}
    {levels : List (Enclosing × Target)} {lo hi : Nat} {built : Built}
    (h : Arranges scope s bound levels lo hi built) :
    Builds s bound levels lo hi built := by
  induction h with
  | @innermost position e t captures lo hi hrestore hcloses hadded htyped =>
    refine Builds.innermost (f := s.frame position e) ?_ ?_ ?_ ?_ rfl rfl hcloses
    · intro n
      exact NameSet.not_mem_empty
    · intro n b hb
      exact Selection.mem_passed_of_carrier?_eq_some hb
    · intro p hp
      exact hrestore.subset (List.mem_append_right _ (List.mem_map_of_mem hp))
    · intro o ho
      exact hrestore.subset (List.mem_append_left _ ho)
  | @enclose within position e t built d new captures lo mid top hi _ hdivides hnew hdrawn hle
      hcloses hadded htyped ih =>
    have hlo := ih.le
    have hhi := hcloses.le
    -- New outputs are named before the frame is closed, so its tags begin after theirs.
    refine Builds.enclose (f := built.frame position e d new) ih ?_ ?_ ?_ ?_ ?_ (hcloses.of_le hle)
    · intro n
      show n ∈ NameSet.ofList _ ↔ _
      rw [NameSet.mem_ofList, Target.mem_names_pattern]
    · intro n
      rfl
    · intro o ho
      exact hdivides.kept.subset ho
    · intro b hb
      obtain ⟨x, hx, rfl⟩ := List.mem_map.1 hb
      rcases List.mem_append.1 hx with hx | hx
      · obtain ⟨c, -, hmem⟩ := hdivides.taken x hx
        exact Or.inl ⟨_, hmem, rfl⟩
      · obtain ⟨y, -, -, hty⟩ := exists_of_mem_right hnew hx
        have htag := hdrawn.2 _ (Pattern.mem_names.2 ⟨_, List.mem_map_of_mem hx, rfl⟩)
        exact Or.inr ⟨⟨_, hty⟩, by omega, by omega⟩
    · -- Without arrays of its own the level has taken all arrays of the one inside: there are none.
      intro hnil
      obtain ⟨htaken, hnone⟩ := List.append_eq_nil_iff.1 (List.map_eq_nil_iff.1 hnil)
      have huntaken : d.untaken built.nest.outermost.pattern = [] := by
        rw [← List.length_eq_zero_iff, hnew.length_eq, hnone]
        rfl
      have hlength := hdivides.perm_positions.length_eq
      rw [huntaken, Division.positions, htaken, List.length_range] at hlength
      exact List.length_eq_zero_iff.1 hlength.symm

/-- A new array has the type in scope that it is bound with. -/
theorem Arranges.lookup_of_new {scope : Scope} {s : Selection} {bound : NameSet}
    {levels : List (Enclosing × Target)} {lo hi : Nat} {built : Built}
    (h : Arranges scope s bound levels lo hi built) :
    (∀ n ∈ declared levels, n.tag < lo) → ∀ t ∈ built.targets.toList, ∀ o ∈ t,
      lo ≤ o.binder.name.tag → scope.lookup? o.binder.name = some o.binder.ty := by
  induction h with
  | @innermost position e t captures lo hi hrestore _ _ htyped =>
    intro htags t' ht' o ho hnew
    rw [List.mem_singleton.1 ht'] at ho
    rcases List.mem_append.1 ho with ho | ho
    · obtain ⟨c, hc, ho⟩ := List.mem_flatMap.1 ho
      exact (htyped c hc).added o ho
    · -- An output that was set aside was there before.
      have hold := hrestore.subset (List.mem_append_right _ ho)
      have := htags o.binder.name (List.mem_flatMap.2 ⟨_, List.mem_singleton_self _,
        List.mem_append_left _ (Target.mem_names_pattern.2 ⟨o, hold, rfl⟩)⟩)
      omega
  | @enclose within position e t built d new captures lo mid top hi _ hdivides _ _ _ _ _ htyped
      ih =>
    intro htags t' ht' o ho hnew
    rw [Stack.toList_pushOuter] at ht'
    rcases List.mem_cons.1 ht' with rfl | ht'
    · rcases List.mem_append.1 ho with ho | ho
      · have := htags o.binder.name (List.mem_flatMap.2 ⟨_, List.mem_cons_self ..,
          List.mem_append_left _ (Target.mem_names_pattern.2 ⟨o, hdivides.kept.subset ho, rfl⟩)⟩)
        omega
      · obtain ⟨c, hc, ho⟩ := List.mem_flatMap.1 ho
        exact (htyped c hc).added o ho
    · exact ih (fun n hn => htags n (mem_declared_cons_of_mem hn)) t' ht' o ho hnew

/-- A successful run builds the levels of the nesting, with some demand on what is outside. -/
theorem Selection.builds_of_kernelNest_eq_ok {nesting : Nesting} {targets targets' : Targets}
    {stms : List Stm} {nest : KernelNest} {st st' : Attempt}
    (h : (Selection.ofStms targets stms).kernelNest nesting st = .ok (targets', nest) st') :
    ∃ demand, Builds (Selection.ofStms targets stms) nesting.bound (nesting.levels targets)
      st.supply.next st'.supply.next ⟨nest, targets', demand⟩ := by
  obtain ⟨-, demand, harranges⟩ := Selection.arranges_of_kernelNest_eq_ok h
  exact ⟨demand, harranges.builds⟩

end MapNest
