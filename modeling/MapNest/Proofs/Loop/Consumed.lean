import MapNest.Proofs.Analysis.Consumed
import MapNest.Proofs.Loop.Distinct

/-!
# `MapNest.Proofs.Loop.Consumed`: what a loop moved out of a nest consumes

A loop inside a map may overwrite the rows that the map hands to it. Outside the map these are rows
of an array that the next iteration of the loop needs again. So each iteration copies the array
first, and the map overwrites the copy (`Level.HandsBy`).

`LoopStm.interchangeAll_consumed` says what this comes to. Outside a nest, the body of the loop
consumes carried values, and what the body consumed before that is bound around the nest. At every
level, each unique parameter that the loop reads is served by one copy, which nothing but the map
of that level reads (`LoopStm.Guarded`).

Both parts go outward level by level. A parameter that the loop consumes is one that it reads, so it
is handed to the map and bound there: consumed names are free in the body
(`Body.mem_free_of_mem_consumed`). A copy made at one level is mentioned inside the body of the next
map, and the levels further out add no mention of it, since its name is drawn.
-/

set_option autoImplicit false

namespace MapNest

variable {level : Level} {lo hi : Nat} {n : Name}

/-! ### What is handed in -/

/-- An array that is handed to the map is consumed by the map only if it is a copy. -/
theorem Level.HandsBy.mem_copies {i : RowInput} {h : Handed} (hh : level.HandsBy true i h)
    (hunique : h.input.param.ty.isUnique) : h.input.array ∈ Stm.patternNames h.copies := by
  cases hh with
  | same hread => exact absurd ⟨hunique, rfl⟩ hread
  | copy => exact List.mem_singleton_self _

/-- To make a copy consumes nothing. -/
theorem Level.HandsBy.consumed_copies {copyConsumed : Bool} {i : RowInput} {h : Handed}
    (hh : level.HandsBy copyConsumed i h) : ∀ s ∈ h.copies, n ∉ s.consumed := by
  cases hh with
  | same => simp
  | copy => simp [Stm.copy, Stm.ofOp, Stm.consumed, Exp.consumed]

/-- A name that is not among the arrays of the level is handed in as often as it names a copy. -/
theorem Level.count_handed {copyConsumed : Bool} {inputs : List RowInput} {handed : List Handed}
    (hhands : List.Forall₂ (level.HandsBy copyConsumed) inputs handed)
    (hn : ∀ i ∈ inputs, i.array ≠ n) :
    (handed.map (·.input.array)).count n
      = (handed.flatMap fun h => Stm.patternNames h.copies).count n := by
  induction hhands with
  | nil => rfl
  | @cons i h inputs handed hh _ ih =>
    have ih := ih fun i' hi' => hn i' (List.mem_cons_of_mem _ hi')
    rw [List.map_cons, List.flatMap_cons, List.count_cons, List.count_append, ih]
    cases hh with
    | same =>
      have hi : (i.array == n) = false := beq_false_of_ne (hn i (List.mem_cons_self ..))
      simp [Stm.patternNames, hi]
    | @copy c =>
      have hcopy : Stm.patternNames [Stm.copy c i.array] = [c.name] := rfl
      rw [hcopy, List.count_singleton]
      exact Nat.add_comm ..

namespace LoopStm

variable {l inner outer : LoopStm} {out : Interchanged} {widened : List Widened}
  {handed : List Handed} {results : List Binder} {ret : List Name}

/-! ### Consumed names -/

/-- Outside a level, the body of the loop consumes carried values, and what it consumed inside
without being handed it. -/
theorem Crossing.of_mem_consumed (c : Crossing true level l lo hi widened handed results ret)
    (hn : n ∈ (l.outside level widened handed results ret).loop.body.consumed) :
    n ∈ (l.outside level widened handed results ret).loop.names ∨
      (n ∈ l.loop.body.consumed ∧ n ∉ l.loop.names ∧
        ∀ i ∈ level.inputs, i.param.name ∈ l.loop.reads → i.param.name ≠ n) := by
  have hinside : l.loop.merge.map (·.param) = widened.map (·.inside.param) :=
    map_eq_map_of_forall₂ c.widens fun m _ w _ hw => by rw [hw.inside_eq]
  have hparams : (level.inputs.filter (·.param.name ∈ l.loop.reads)).map (·.param)
      = handed.map (·.input.param) :=
    map_eq_map_of_forall₂ c.hands fun i _ h _ hh => hh.hands.param_eq.symm
  rw [Body.consumed_eq, outside, Body.stms_ofStms, Stm.mem_consumedAll] at hn
  obtain ⟨⟨s, hs, hn⟩, hbound⟩ := hn
  rcases List.mem_append.1 hs with hs | hs
  · -- Copies consume nothing.
    obtain ⟨h, hh, hs⟩ := List.mem_flatMap.1 hs
    obtain ⟨i, -, hhands⟩ := exists_of_mem_right c.hands hh
    exact absurd hn (hhands.consumed_copies s hs)
  rw [List.mem_singleton.1 hs, mapStm, Stm.consumed, Exp.consumed, Lambda.mem_consumed,
    List.zip_map'] at hn
  rcases hn with ⟨hbody, hnames⟩ | ⟨p, hp, hunique⟩
  · -- The map binds what is handed in and the carried values.
    rw [List.map_append, List.map_map, List.map_map, Pattern.names_append, List.mem_append,
      not_or] at hnames
    refine Or.inr ⟨hbody, fun hmerge => hnames.2 ?_, fun i hi hread hname => hnames.1 ?_⟩
    · rw [← Loop.names_params, hinside] at hmerge
      exact hmerge
    · have hi : i.param ∈ handed.map (·.input.param) := by
        rw [← hparams]
        exact List.mem_map_of_mem (List.mem_filter.2 ⟨hi, decide_eq_true hread⟩)
      exact Pattern.mem_names.2 ⟨i.param, hi, hname⟩
  · obtain ⟨r, hr, heq⟩ := List.mem_map.1 hp
    cases heq
    rcases List.mem_append.1 hr with hr | hr
    · -- Rows that may be overwritten are rows of a copy, which the body itself binds.
      obtain ⟨h, hh, rfl⟩ := List.mem_map.1 hr
      obtain ⟨i, -, hhands⟩ := exists_of_mem_right c.hands hh
      obtain ⟨s, hs, b, hb, hname⟩ := Stm.mem_patternNames.1 (hhands.mem_copies hunique)
      refine absurd (Stm.mem_bound.2 ⟨s, ?_, b, hb, hname⟩) hbound
      exact List.mem_append_left _ (List.mem_flatMap.2 ⟨h, hh, hs⟩)
    · obtain ⟨w, hw, rfl⟩ := List.mem_map.1 hr
      refine Or.inl ?_
      rw [names_outside]
      exact List.mem_map.2 ⟨w, hw, rfl⟩

/-- Outside some levels, the body of a loop consumes carried values, and what it consumed inside
that neither the levels nor the loop bind. -/
theorem of_mem_consumed_interchangeLevels {levels : List Level} {st : Attempt}
    (hnodup : (levels.flatMap Level.names).Nodup)
    (hbinders : ∀ n ∈ Pattern.names l.loop.binders, n ∉ levels.flatMap Level.names)
    (htags : ∀ n ∈ levels.flatMap Level.names, n.tag < st.supply.next)
    (hindex : ∀ level ∈ levels, level.index ∉ l.loop.body.consumed) :
    ∀ {position : Nat} {st' : Attempt} {out : Interchanged},
      l.interchangeLevels true position levels st = .ok out st' →
      ∀ n ∈ out.loop.loop.body.consumed, n ∈ out.loop.loop.names ∨
        (n ∈ l.loop.body.consumed ∧ n ∉ l.loop.names ∧ ∀ level ∈ levels, n ∉ level.bound) := by
  induction levels with
  | nil =>
    intro position st' out h n hn
    obtain ⟨rfl, rfl⟩ := pure_eq_ok_iff.1 h
    by_cases hmerge : n ∈ l.loop.names
    · exact Or.inl hmerge
    · exact Or.inr ⟨hn, hmerge, by simp⟩
  | cons level rest ih =>
    intro position st' out h n hn
    obtain ⟨inner, outer, s₁, s₂, hinner, houter, -, rfl⟩ := interchangeLevels_cons_eq_ok h
    obtain ⟨widened, handed, results, ret, hcrossing, rfl⟩ := interchange_eq_ok houter
    rw [List.flatMap_cons] at hnodup hbinders htags
    obtain ⟨-, hnodup', hdisjoint⟩ := List.nodup_append.1 hnodup
    have ih := ih hnodup' (fun n hn hmem => hbinders n hn (List.mem_append_right _ hmem))
      (fun n hn => htags n (List.mem_append_right _ hn))
      (fun level' hlevel' => hindex level' (List.mem_cons_of_mem _ hlevel')) hinner
    rcases hcrossing.of_mem_consumed hn with hnames | ⟨hbody, hnames, hparam⟩
    · exact Or.inl hnames
    rcases ih n hbody with hmerge | ⟨horiginal, hmerge, hrest⟩
    · exact absurd hmerge hnames
    refine Or.inr ⟨horiginal, hmerge, ?_⟩
    rintro level' hlevel' hbound
    rcases List.mem_cons.1 hlevel' with rfl | hlevel'
    swap
    · exact hrest level' hlevel' hbound
    have hlevel : n ∈ level'.names := Level.mem_names.2 hbound
    rcases Level.mem_bound.1 hbound with rfl | ⟨i, hi, rfl⟩
    · exact hindex level' (List.mem_cons_self ..) horiginal
    -- The parameter is consumed, so the loop reads it: nothing inside the loop binds its name.
    refine hparam i hi (NameSet.mem_union.2 (Or.inl ?_)) rfl
    refine (Body.mem_free_of_mem_consumed hbody).resolve_right fun hbinder => ?_
    have hbound : i.param.name ∈ Pattern.names inner.loop.loop.binders := by
      rw [Loop.binders_eq, Pattern.names_append]
      exact List.mem_append_right _ hbinder
    have hcrosses := crossesAll_of_interchangeLevels_eq_ok hinner
    rcases hcrosses.mem_binders hbound with hnew | hkept | hbinder
    · have := htags _ (List.mem_append_left _ hlevel)
      omega
    · exact hdisjoint _ hlevel _ hkept rfl
    · exact hbinders _ hbinder (List.mem_append_left _ hlevel)

/-! ### Copies -/

/-- How a parameter of a level is served by an iteration of the loop outside, if `arrays` are the
arguments of the map that the iteration runs: by a copy, the only argument of its name, if the rows
may be overwritten, and by its own array otherwise. `P` is what is asked of the names of copies. -/
inductive Serves (P : Name → Prop) (arrays : List Name) (i : RowInput) : Handed → Prop
  /-- The map reads the array. -/
  | same (hread : ¬i.param.ty.isUnique) : Serves P arrays i ⟨i, []⟩
  /-- The map overwrites a copy. -/
  | copy {c : Binder} (hunique : i.param.ty.isUnique) (hargument : arrays.count c.name = 1)
      (hname : P c.name) : Serves P arrays i ⟨⟨i.param, c.name⟩, [Stm.copy c i.array]⟩

/-- How the loop outside a level guards the arrays of the level: an iteration makes the copies, and
then it runs the map around the body of the loop inside. The map takes the parameters of the level
that the loop inside reads, each served in its way, and the carried values. -/
structure Guards (P : Name → Prop) (level : Level) (inner outer : LoopStm) (handed : List Handed)
    (results : Pattern) (function : Lambda) : Prop where
  body : outer.loop.body = Body.ofStms (handed.flatMap (·.copies) ++
    [⟨results, .map level.checks level.width function
      (handed.map (·.input.array) ++ outer.loop.names)⟩]) (Pattern.operands results)
  index : function.index = level.index
  params : function.params = handed.map (·.input.param) ++ inner.loop.merge.map (·.param)
  inside : function.body = inner.loop.body
  serves : List.Forall₂ (Serves P (handed.map (·.input.array) ++ outer.loop.names))
    (level.inputs.filter (·.param.name ∈ inner.loop.reads)) handed

/-- A loop guards the arrays of all levels that it has left, the last one of the list first. -/
inductive Guarded (P : Name → Prop) (l : LoopStm) : List Level → LoopStm → Prop
  /-- Without levels the loop stays as it is. -/
  | nil : Guarded P l [] l
  /-- The loop that has left the levels further inside leaves one more. -/
  | cons {level : Level} {rest : List Level} {inner outer : LoopStm} {handed : List Handed}
      {results : Pattern} {function : Lambda} (hinner : Guarded P l rest inner)
      (houter : Guards P level inner outer handed results function) :
      Guarded P l (level :: rest) outer

/-- What is asked of the names of copies may be weakened. -/
theorem Serves.imp {P Q : Name → Prop} {arrays : List Name} {i : RowInput} {h : Handed}
    (himp : ∀ n, P n → Q n) (hs : Serves P arrays i h) : Serves Q arrays i h := by
  cases hs with
  | same hread => exact .same hread
  | copy hunique hargument hname => exact .copy hunique hargument (himp _ hname)

/-- The same holds at all levels. -/
theorem Guarded.imp {P Q : Name → Prop} {levels : List Level} (himp : ∀ n, P n → Q n)
    (h : l.Guarded P levels outer) : l.Guarded Q levels outer := by
  induction h with
  | nil => exact .nil
  | cons _ houter ih =>
    exact .cons ih { houter with serves := houter.serves.imp fun _ _ hs => hs.imp himp }

/-- The loop outside a level has the shape that is asked for, so it guards the arrays of the level
if each parameter is served. -/
theorem Crossing.guards {P : Name → Prop} {copyConsumed : Bool}
    (c : Crossing copyConsumed level l lo hi widened handed results ret)
    (hserves : List.Forall₂ (Serves P (handed.map (·.input.array)
        ++ (l.outside level widened handed results ret).loop.names))
      (level.inputs.filter (·.param.name ∈ l.loop.reads)) handed) :
    ∃ function, Guards P level l (l.outside level widened handed results ret) handed results
      function := by
  have hinside : l.loop.merge.map (·.param) = widened.map (·.inside.param) :=
    map_eq_map_of_forall₂ c.widens fun m _ w _ hw => by rw [hw.inside_eq]
  refine ⟨⟨level.index, handed.map (·.input.param) ++ widened.map (·.inside.param), l.loop.body,
    widened.map (·.inside.param.ty)⟩, ?_, rfl, ?_, rfl, hserves⟩
  · simp [outside, mapStm, Loop.names, Function.comp_def]
  · rw [hinside]

/-- Of the statements that a loop has become, only the body of the loop mentions a name, and it does
so once. -/
structure Once (out : Interchanged) (n : Name) : Prop where
  prelude : ∀ s ∈ out.prelude, n ∉ s.mentions
  around : n ∉ out.loop.loop.header ∧ n ∉ out.loop.loop.ret
  body : out.loop.loop.body.mentions.count n = 1

/-- A name that is not drawn at a level, other than for copies, and does not occur in it, is
mentioned outside the level as often as it is handed in or mentioned in the body. -/
theorem Crossing.count_mentions (c : Crossing true level l lo hi widened handed results ret)
    (hlevel : n ∉ level.occurring) (hheader : n ∉ l.loop.header)
    (hexpanded : n ∉ widened.flatMap Widened.drawn) (hdrawn : n ∉ Pattern.names results) :
    (∀ s ∈ widened.flatMap (·.replicates), n ∉ s.mentions) ∧
      (n ∉ (l.outside level widened handed results ret).loop.header ∧ n ∉ ret) ∧
      (l.outside level widened handed results ret).loop.body.mentions.count n
        = (handed.map (·.input.array)).count n + l.loop.body.mentions.count n := by
  have hhands : ∀ h ∈ handed, ∃ i ∈ level.inputs, level.Hands i h := by
    intro h hh
    obtain ⟨i, hi, hhands⟩ := exists_of_mem_right c.hands hh
    exact ⟨i, (List.mem_filter.1 hi).1, hhands.hands⟩
  obtain ⟨hprelude, haround⟩ := mentions_around (P := (· ≠ n)) c.widens hhands c.types c.returns
    (fun m hm h => hlevel (h ▸ hm)) (fun m hm h => hheader (h ▸ hm))
    (fun m hm h => hexpanded (h ▸ hm)) (fun m hm h => hdrawn (h ▸ hm))
  have hperm : (l.outside level widened handed results ret).loop.mentions.Perm
      (handed.map (·.input.array) ++ l.loop.body.mentions ++
        l.around level widened handed results ret) := perm_mentions_outside
  have hcount := hperm.count_eq n
  have hnone : (l.around level widened handed results ret).count n = 0 :=
    List.count_eq_zero.2 fun hn => haround n hn rfl
  have hheader' : n ∉ (l.outside level widened handed results ret).loop.header := by
    intro hn
    refine haround n ?_ rfl
    simp only [around, List.append_assoc]
    exact List.mem_append_left _ hn
  have hret : n ∉ ret := by
    intro hn
    refine haround n ?_ rfl
    simp only [around, List.append_assoc]
    exact List.mem_append_right _ (List.mem_append_left _ hn)
  refine ⟨fun s hs hn => hprelude s hs n hn rfl, ⟨hheader', hret⟩, ?_⟩
  -- Of what the loop outside mentions, only its body mentions the name.
  have hsplit : (l.outside level widened handed results ret).loop.mentions
      = (l.outside level widened handed results ret).loop.header ++ ret ++
        (l.outside level widened handed results ret).loop.body.mentions := Loop.mentions_eq
  rw [hsplit] at hcount
  simp only [List.count_append, hnone, List.count_eq_zero.2 hheader', List.count_eq_zero.2 hret]
    at hcount
  omega

section Step

variable {start : Nat} {prelude : List Stm}

/-- A name that is newer than the level is handed in as often as it names a copy. -/
theorem Crossing.count_handed (c : Crossing true level l lo hi widened handed results ret)
    (hlevel : ∀ n ∈ level.occurring, n.tag < start) (hn : start ≤ n.tag) :
    (handed.map (·.input.array)).count n
      = (handed.flatMap fun h => Stm.patternNames h.copies).count n := by
  refine Level.count_handed c.hands fun i hi heq => ?_
  have := hlevel _ (Level.mentions_array (List.mem_filter.1 hi).1).mem_occurring
  rw [heq] at this
  omega

/-- A copy made further inside is mentioned there, and not again. -/
theorem Crossing.once_inside (c : Crossing true level l lo hi widened handed results ret)
    (hlevel : ∀ n ∈ level.occurring, n.tag < start) (hn : start ≤ n.tag) (hlo : n.tag < lo)
    (honce : Once ⟨prelude, l⟩ n) :
    Once ⟨prelude ++ widened.flatMap (·.replicates), l.outside level widened handed results ret⟩
      n := by
  obtain ⟨a, b, hexpanded, hcopied, hdrawn, hle⟩ := c.drawn
  obtain ⟨hreplicates, haround, hcount⟩ := c.count_mentions
    (fun hn => by have := hlevel n hn; omega) honce.around.1
    (fun hn => by have := hexpanded.2 n hn; omega)
    (fun hn => by have := hdrawn.2 n hn; omega)
  refine ⟨fun s hs => ?_, haround, ?_⟩
  · rcases List.mem_append.1 hs with hs | hs
    · exact honce.prelude s hs
    · exact hreplicates s hs
  · rw [hcount, c.count_handed hlevel hn, List.count_eq_zero.2 fun hn => ?_, honce.body]
    have := hcopied.2 n hn
    omega

/-- A new copy is handed in once, and mentioned nowhere else. -/
theorem Crossing.once_copy (c : Crossing true level l lo hi widened handed results ret)
    (hlevel : ∀ n ∈ level.occurring, n.tag < start) (hstart : start ≤ lo)
    (hprelude : ∀ s ∈ prelude, ∀ n ∈ s.mentions, n.tag < lo)
    (hloop : ∀ n ∈ l.loop.mentions, n.tag < lo)
    (hn : n ∈ handed.flatMap fun h => Stm.patternNames h.copies) :
    (handed.map (·.input.array) ++ (l.outside level widened handed results ret).loop.names).count n
        = 1 ∧ (start ≤ n.tag ∧ n.tag < hi) ∧
      Once ⟨prelude ++ widened.flatMap (·.replicates), l.outside level widened handed results ret⟩
        n := by
  obtain ⟨a, b, hexpanded, hcopied, hdrawn, hle⟩ := c.drawn
  have htag := hcopied.2 n hn
  have hhanded : (handed.map (·.input.array)).count n = 1 := by
    rw [c.count_handed hlevel (by omega)]
    exact List.count_eq_one_of_mem hcopied.nodup hn
  rw [Loop.mentions_eq] at hloop
  obtain ⟨hreplicates, haround, hcount⟩ := c.count_mentions
    (fun hn => by have := hlevel n hn; omega)
    (fun hn => by
      have := hloop n (List.mem_append_left _ (List.mem_append_left _ hn))
      omega)
    (fun hn => by have := hexpanded.2 n hn; omega)
    (fun hn => by have := hdrawn.2 n hn; omega)
  refine ⟨?_, ⟨by omega, by omega⟩, ⟨fun s hs hn => ?_, haround, ?_⟩⟩
  · -- The carried values outside have earlier tags than the copies.
    rw [List.count_append, hhanded, List.count_eq_zero.2 fun hn => ?_]
    rw [names_outside] at hn
    have := hexpanded.2 n (Widened.sublist_outside.subset hn)
    omega
  · rcases List.mem_append.1 hs with hs | hs
    · have := hprelude s hs n hn
      omega
    · exact hreplicates s hs hn
  · rw [hcount, hhanded, List.count_eq_zero.2 fun hn => ?_]
    have := hloop n (List.mem_append_right _ hn)
    omega

/-- Each parameter that the loop reads is served: its rows are those of a new copy if they may be
overwritten. -/
theorem Crossing.serves (c : Crossing true level l lo hi widened handed results ret)
    (hlevel : ∀ n ∈ level.occurring, n.tag < start) (hstart : start ≤ lo)
    (hprelude : ∀ s ∈ prelude, ∀ n ∈ s.mentions, n.tag < lo)
    (hloop : ∀ n ∈ l.loop.mentions, n.tag < lo) :
    List.Forall₂ (Serves (fun n => (start ≤ n.tag ∧ n.tag < hi) ∧
        Once ⟨prelude ++ widened.flatMap (·.replicates),
          l.outside level widened handed results ret⟩ n)
        (handed.map (·.input.array) ++ (l.outside level widened handed results ret).loop.names))
      (level.inputs.filter (·.param.name ∈ l.loop.reads)) handed := by
  refine forall₂_imp_of_mem c.hands fun i _ h hh hhands => ?_
  cases hhands with
  | same hread => exact .same fun hunique => hread ⟨hunique, rfl⟩
  | copy hunique =>
    obtain ⟨hargument, honce⟩ := c.once_copy hlevel hstart hprelude hloop
      (List.mem_flatMap.2 ⟨_, hh, List.mem_singleton_self _⟩)
    exact .copy hunique hargument honce

end Step

/-- A loop that leaves some levels guards their arrays, and each copy is mentioned once. -/
theorem guarded_of_interchangeLevels_eq_ok {levels : List Level} {st : Attempt}
    (hlevels : ∀ level ∈ levels, ∀ n ∈ level.occurring, n.tag < st.supply.next)
    (hloop : ∀ n ∈ l.loop.mentions, n.tag < st.supply.next) :
    ∀ {position : Nat} {st' : Attempt} {out : Interchanged},
      l.interchangeLevels true position levels st = .ok out st' →
      l.Guarded (fun n => (st.supply.next ≤ n.tag ∧ n.tag < st'.supply.next) ∧ Once out n) levels
        out.loop := by
  induction levels with
  | nil =>
    intro position st' out h
    obtain ⟨rfl, rfl⟩ := pure_eq_ok_iff.1 h
    exact .nil
  | cons level rest ih =>
    intro position st' out h
    obtain ⟨inner, outer, s₁, s₂, hinner, houter, hsupply, rfl⟩ := interchangeLevels_cons_eq_ok h
    obtain ⟨widened, handed, results, ret, c, rfl⟩ := interchange_eq_ok houter
    rw [hsupply]
    have hlevel := hlevels level (List.mem_cons_self ..)
    have hrest := fun level' hlevel' => hlevels level' (List.mem_cons_of_mem _ hlevel')
    -- All that the loop inside mentions has an earlier tag than what is drawn now.
    have hcrosses := crossesAll_of_interchangeLevels_eq_ok hinner
    have hstart := hcrosses.le
    obtain ⟨hprelude, hmentions⟩ := hcrosses.mentions (P := fun n => n.tag < s₁.supply.next)
      (fun level' hlevel' n hn => Nat.lt_of_lt_of_le (hrest level' hlevel' n hn) hstart)
      (fun n hn => Nat.lt_of_lt_of_le (hloop n hn) hstart) fun n _ hn => hn
    obtain ⟨function, hguards⟩ := c.guards (c.serves hlevel hstart hprelude hmentions)
    refine .cons ((ih hrest hinner).imp ?_) hguards
    rintro n ⟨htag, honce⟩
    refine ⟨⟨htag.1, Nat.lt_of_lt_of_le htag.2 c.crosses.le⟩, ?_⟩
    exact c.once_inside hlevel htag.1 htag.2 honce

/-- A name that only the body of the loop mentions is mentioned as often in all statements. -/
theorem Once.count_stms (h : Once out n) (hpattern : n ∉ Pattern.dimNames out.loop.pattern) :
    ((out.prelude ++ [out.loop.toStm]).flatMap Stm.mentions).count n = 1 := by
  have hprelude : (out.prelude.flatMap Stm.mentions).count n = 0 := by
    refine List.count_eq_zero.2 fun hn => ?_
    obtain ⟨s, hs, hn⟩ := List.mem_flatMap.1 hn
    exact h.prelude s hs hn
  have hloop : out.loop.toStm.mentions
      = out.loop.loop.header ++ out.loop.loop.ret ++ out.loop.loop.body.mentions ++
        Pattern.dimNames out.loop.pattern := by
    rw [Stm.mentions, toStm, Exp.mentions, Loop.mentions_eq, Loop.header]
  rw [List.flatMap_append, List.flatMap_singleton, hloop]
  simp only [List.count_append, hprelude, List.count_eq_zero.2 h.around.1,
    List.count_eq_zero.2 h.around.2, List.count_eq_zero.2 hpattern, h.body]

/-! ### The theorem -/

/-- A loop moved out of a nest, with copies asked for, never writes into data that is visible
outside one of its iterations. Its body consumes carried values, and what the body inside consumed
that neither the nest nor the loop binds; beyond these the loop consumes only the initial values of
unique carried values. At every level, a unique parameter that the loop reads there is served by one
copy, an argument of the map once and mentioned nowhere else; other parameters that it reads are
served by their arrays, and those that it does not read by nothing. -/
theorem interchangeAll_consumes {nest : KernelNest} {st st' : Attempt} {stms : List Stm}
    (hnodup : (nest.toList.flatMap Level.names).Nodup)
    (hbinders : ∀ n ∈ Pattern.names l.loop.binders, n ∉ nest.toList.flatMap Level.names)
    (hlevels : ∀ level ∈ nest.toList, ∀ n ∈ level.occurring, n.tag < st.supply.next)
    (hloop : ∀ n ∈ l.loop.mentions, n.tag < st.supply.next)
    (hindex : ∀ level ∈ nest.toList, level.index ∉ l.loop.body.consumed)
    (h : l.interchangeAll true nest st = .ok stms st') :
    ∃ (replicates : List Stm) (out : LoopStm), stms = replicates ++ [out.toStm] ∧
      (∀ n ∈ out.loop.body.consumed, n ∈ out.loop.names ∨
        (n ∈ l.loop.body.consumed ∧ n ∉ nest.bound ∧ n ∉ l.loop.names)) ∧
      (∀ n ∈ out.loop.consumed, (n ∈ l.loop.body.consumed ∧ n ∉ nest.bound ∧ n ∉ l.loop.names) ∨
        ∃ m ∈ out.loop.merge, m.param.ty.isUnique ∧ m.init = .var n) ∧
      l.Guarded (fun n => st.supply.next ≤ n.tag ∧ (stms.flatMap Stm.mentions).count n = 1)
        nest.toList out := by
  unfold interchangeAll at h
  obtain ⟨out, hout, rfl⟩ := bind_pure_eq_ok_iff.1 h
  have htags : ∀ n ∈ nest.toList.flatMap Level.names, n.tag < st.supply.next := by
    intro n hn
    obtain ⟨level, hlevel, hn⟩ := List.mem_flatMap.1 hn
    exact hlevels level hlevel n (Level.mem_occurring_of_mem_bound (Level.mem_names.1 hn))
  have hbody : ∀ n ∈ out.loop.loop.body.consumed, n ∈ out.loop.loop.names ∨
      (n ∈ l.loop.body.consumed ∧ n ∉ nest.bound ∧ n ∉ l.loop.names) := by
    intro n hn
    rcases of_mem_consumed_interchangeLevels hnodup hbinders htags hindex hout n hn with
      hnames | ⟨hconsumed, hnames, hlevels⟩
    · exact Or.inl hnames
    · refine Or.inr ⟨hconsumed, fun hbound => ?_, hnames⟩
      obtain ⟨_, hset, hn⟩ := NameSet.mem_unions.1 hbound
      obtain ⟨level, hlevel, rfl⟩ := List.mem_map.1 hset
      exact hlevels level hlevel hn
  refine ⟨out.prelude, out.loop, rfl, hbody, fun n hn => ?_, ?_⟩
  · rcases Loop.mem_consumed.1 hn with ⟨hn, hnames⟩ | hinit
    · exact Or.inl ((hbody n hn).resolve_left hnames)
    · exact Or.inr hinit
  · refine (guarded_of_interchangeLevels_eq_ok hlevels hloop hout).imp fun n hn => ?_
    refine ⟨hn.1.1, hn.2.count_stms fun hpattern => ?_⟩
    -- The pattern is that of the outermost level.
    obtain ⟨rest, hrest⟩ := nest.exists_toList_eq_cons
    have hcrosses := crossesAll_of_interchangeLevels_eq_ok hout
    rw [hrest] at hcrosses
    rw [hcrosses.pattern.1] at hpattern
    have := hlevels _ nest.outermost_mem n (Level.mem_occurring_of_mem_dimNames hpattern)
    omega

end LoopStm

/-! Two maps around a loop that overwrites the row that it is handed:

    map i < 2 (xs <- xss):
      map j < 3 (x <- xs):
        b = loop (acc = 0) for k < 5:
          y = x with [0] <- acc
          y[0]

Each iteration copies `xss`, and inside the outer map `xs` once more. -/

namespace Overwriting

/-- Unique arrays of integers in some dimensions. -/
def ints (dims : List Int32) : Ty := .array .i32 (dims.map .ofInt32) true

/-- The maps. -/
def nest : KernelNest :=
  ⟨[⟨[⟨⟨"ys", 0⟩, (ints [2, 3]).withUnique false⟩], [], .ofInt32 2, ⟨"i", 1⟩,
      [⟨⟨⟨"xs", 2⟩, ints [3, 4]⟩, ⟨"xss", 3⟩⟩]⟩],
    ⟨[⟨⟨"y", 4⟩, (ints [3]).withUnique false⟩], [], .ofInt32 3, ⟨"j", 5⟩,
      [⟨⟨⟨"x", 6⟩, ints [4]⟩, ⟨"xs", 2⟩⟩]⟩⟩

/-- The loop at the heart. -/
def loop : LoopStm :=
  ⟨[⟨⟨"b", 7⟩, .scalar .i32⟩],
    ⟨[⟨"acc", 8⟩], [⟨⟨⟨"acc", 8⟩, .scalar .i32⟩, .ofInt32 0⟩], .forBelow ⟨"k", 9⟩ (.ofInt32 5),
      .ofStms [⟨[⟨⟨"y", 10⟩, ints [4]⟩],
          .update [] ⟨"x", 6⟩ [.ofInt32 0] (.var ⟨"acc", 8⟩)⟩,
        Stm.ofOp ⟨⟨"r", 11⟩, .scalar .i32⟩ (.index [] ⟨"y", 10⟩ [.ofInt32 0])] [.var ⟨"r", 11⟩]⟩⟩

/-- The attempt to move it. -/
def attempt : Attempt := { supply := ⟨12⟩ }

end Overwriting

/-- Outside these maps the body of the loop consumes nothing, since each iteration overwrites copies
of its own. -/
theorem LoopStm.interchangeAll_consumes_copies :
    ∃ (stms : List Stm) (st' : Attempt) (replicates : List Stm) (out : LoopStm),
      Overwriting.loop.interchangeAll true Overwriting.nest Overwriting.attempt = .ok stms st' ∧
      stms = replicates ++ [out.toStm] ∧ out.loop.body.consumed = ∅ ∧
      (∀ n ∈ out.loop.consumed, (n ∈ Overwriting.loop.loop.body.consumed ∧
          n ∉ Overwriting.nest.bound ∧ n ∉ Overwriting.loop.loop.names) ∨
        ∃ m ∈ out.loop.merge, m.param.ty.isUnique ∧ m.init = .var n) ∧
      Overwriting.loop.Guarded
        (fun n => 12 ≤ n.tag ∧ (stms.flatMap Stm.mentions).count n = 1)
        Overwriting.nest.toList out := by
  have hmoves : passes (fun stms => decide
        ((stms.getLast?.bind LoopStm.ofStm?).map (·.loop.body.consumed) = some ∅))
      (Overwriting.loop.interchangeAll true Overwriting.nest Overwriting.attempt) = true := by
    decide +kernel
  obtain ⟨stms, st', h, htest⟩ := exists_of_passes hmoves
  have hlast := of_decide_eq_true htest
  obtain ⟨replicates, out, rfl, -, hloop, hguarded⟩ := LoopStm.interchangeAll_consumes
    (by decide) (by decide) (by decide) (by decide) (by decide) h
  rw [List.getLast?_concat, Option.bind_some, LoopStm.ofStm?_toStm, Option.map_some,
    Option.some.injEq] at hlast
  exact ⟨_, st', replicates, out, h, rfl, hlast, hloop, hguarded⟩

/-! An index is no array. Where a body takes it for one and hands its rows to a map that may
overwrite them, no update starts from the index, but it is consumed, and no level hands it in:

    map i < 2:
      b = loop (acc = 0) for k < 5:
        zs = map j < 3 (u <- i): u
        acc
-/

mutual

/-- The arrays that the updates in an expression start from. -/
def Exp.updated : Exp → List Name
  | .op _ => []
  | .update _ source _ _ => [source]
  | .loop l => l.updated
  | .map _ _ function _ => function.updated
  | .kernel k => k.updated

/-- The arrays that the updates in a loop start from. -/
def Loop.updated : Loop → List Name
  | ⟨_, _, _, body⟩ => body.updated

/-- The arrays that the updates in a function start from. -/
def Lambda.updated : Lambda → List Name
  | ⟨_, _, body, _⟩ => body.updated

/-- The arrays that the updates in a kernel start from. -/
def Kernel.updated : Kernel → List Name
  | ⟨_, _, _, _, _, _, body⟩ => body.updated

/-- The arrays that the updates in a body start from. -/
def Body.updated : Body → List Name
  | .yield _ => []
  | .bind _ exp rest => exp.updated ++ rest.updated

end

namespace HandedIndex

/-- The map. -/
def nest : KernelNest :=
  .single ⟨[⟨⟨"ys", 0⟩, .array .i32 [.ofInt32 2] false⟩], [], .ofInt32 2, ⟨"i", 1⟩, []⟩

/-- The loop inside it. -/
def loop : LoopStm :=
  ⟨[⟨⟨"b", 2⟩, .scalar .i32⟩],
    ⟨[⟨"acc", 3⟩], [⟨⟨⟨"acc", 3⟩, .scalar .i32⟩, .ofInt32 0⟩], .forBelow ⟨"k", 4⟩ (.ofInt32 5),
      .ofStms [⟨[⟨⟨"zs", 5⟩, .array .i32 [.ofInt32 3, .ofInt32 4] true⟩],
        .map [] (.ofInt32 3) ⟨⟨"j", 6⟩, [⟨⟨"u", 7⟩, .array .i32 [.ofInt32 4] true⟩],
          .yield [.var ⟨"u", 7⟩], [.array .i32 [.ofInt32 4] true]⟩ [⟨"i", 1⟩]⟩]
        [.var ⟨"acc", 3⟩]⟩⟩

/-- The attempt to move it. -/
def attempt : Attempt := { supply := ⟨8⟩ }

end HandedIndex

/-- No update starts from an index, and still the loop outside consumes one. -/
theorem LoopStm.interchangeAll_consumes_index :
    (HandedIndex.nest.toList.flatMap Level.names).Nodup ∧
      (∀ n ∈ Pattern.names HandedIndex.loop.loop.binders,
        n ∉ HandedIndex.nest.toList.flatMap Level.names) ∧
      (∀ level ∈ HandedIndex.nest.toList, ∀ n ∈ level.occurring, n.tag < 8) ∧
      (∀ n ∈ HandedIndex.loop.toStm.occurring, n.tag < 8) ∧
      (∀ level ∈ HandedIndex.nest.toList, level.index ∉ HandedIndex.loop.loop.body.updated) ∧
      ∃ (stms : List Stm) (st' : Attempt) (replicates : List Stm) (out : LoopStm),
        HandedIndex.loop.interchangeAll true HandedIndex.nest HandedIndex.attempt = .ok stms st' ∧
        stms = replicates ++ [out.toStm] ∧ ⟨"i", 1⟩ ∈ out.loop.body.consumed ∧
        ⟨"i", 1⟩ ∉ out.loop.names ∧ ⟨"i", 1⟩ ∈ HandedIndex.nest.bound := by
  have hmoves : passes (fun stms => decide
        (∃ l ∈ stms.getLast?.bind LoopStm.ofStm?, ⟨"i", 1⟩ ∈ l.loop.body.consumed ∧
          ⟨"i", 1⟩ ∉ l.loop.names))
      (HandedIndex.loop.interchangeAll true HandedIndex.nest HandedIndex.attempt) = true := by
    decide +kernel
  obtain ⟨stms, st', h, htest⟩ := exists_of_passes hmoves
  obtain ⟨out, hout, hconsumed, hnames⟩ := of_decide_eq_true htest
  obtain ⟨all, hcrosses, rfl⟩ := LoopStm.crossesAll_of_interchangeAll_eq_ok h
  rw [List.getLast?_concat, Option.bind_some, LoopStm.ofStm?_toStm] at hout
  cases hout
  exact ⟨by decide, by decide, by decide, by decide, by decide, _, st', all.prelude, all.loop, h,
    rfl, hconsumed, hnames, by decide⟩

end MapNest
