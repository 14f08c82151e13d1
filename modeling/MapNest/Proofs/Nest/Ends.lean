import MapNest.Proofs.Analysis.Free
import MapNest.Proofs.Ends
import MapNest.Proofs.Nest.Builds

/-!
# `MapNest.Proofs.Nest.Ends`: the types in a kernel nest

Building a kernel nest looks up the types of the names that are handed in from outside a level.
These are bound by the body of the level's map, or they are arrays that the map just inside returns:
some were there before, and others stand for names handed in further inside. If all types that the
attempt is given are of one kind (`Furnished`), and the kind has the arrays of its types as well,
then the types of the levels and of the targets are of that kind too (`Built.Typed`). This is one
induction along the run, the innermost level first.

The kind says what the run may come to. Without names that have no type it does not fail, and with
types whose sizes are known outside the nest it is not refused.
-/

set_option autoImplicit false

namespace MapNest

open AttemptM Attempt

variable {stop : Stop → Prop} {ok : Ty → Prop} {bound : NameSet} {st st' : Attempt}

/-- A capture ends well for a name that has a type: its parameter has that type, and an array it
adds is known from then on. -/
theorem capture_ends {width : Operand} {carrier? : Name → Option Binder} {n : Name}
    (hnext : st.supply.next ≤ Supply.lastTag) (hwidth : ∀ ty, ok ty → ok (ty.arrayOf width))
    (hn : st.Types stop ok n) :
    (capture width carrier? n).Ends st stop fun c st' =>
      st.Extends stop ok st' ∧ ok c.input.param.ty ∧
        ∀ o ∈ c.added, ok o.binder.ty ∧ st'.Types stop ok o.binder.name := by
  unfold capture
  refine (typeOf_ends hn).bind fun ty s _ hs => ?_
  obtain ⟨rfl, hty⟩ := hs
  cases carrier? n with
  | some carrier => exact .pure ⟨.refl hnext, hty, by simp⟩
  | none =>
    refine (freshBinder_ends _ hnext (hwidth ty hty)).bind fun array s' _ hs' => .pure ?_
    obtain ⟨hextends, harray, htypes⟩ := hs'
    refine ⟨hextends, hty, fun o ho => ?_⟩
    rw [List.mem_singleton.1 ho]
    exact ⟨harray ▸ hwidth ty hty, htypes⟩

/-- A new output is made, and its array has a type of the kind. -/
theorem newOutput_ends {width : Operand} {x : Binder × Nat}
    (hnext : st.supply.next ≤ Supply.lastTag) (hwidth : ∀ ty, ok ty → ok (ty.arrayOf width))
    (hx : ok x.1.ty) :
    (newOutput width x).Ends st stop fun out st' => st.Extends stop ok st' ∧ ok out.binder.ty := by
  unfold newOutput
  refine (freshBinder_ends _ hnext (hwidth _ hx)).bind fun b s _ hs => .pure ?_
  obtain ⟨hextends, hty, -⟩ := hs
  exact ⟨hextends, hty ▸ hwidth _ hx⟩

/-- A kind of types that does not depend on what may be overwritten. Types of the kind pass the
check for irregular arrays, or it is allowed that they do not. -/
structure Kind (stop : Stop → Prop) (ok : Ty → Prop) (bound : NameSet) : Prop where
  dims : ∀ ty ty' : Ty, ty.dims = ty'.dims → ok ty → ok ty'
  irregular : ∀ ty, ok ty → (∀ v ∈ ty.dims, v.Known bound) ∨ ∀ reason, stop (.refused reason)

section Frames

variable {f : Frame} {demand : Demand}

/-- The types of what is handed in at a level are of the kind, and those of new arrays are. -/
theorem Frame.captures_ends (hnext : st.supply.next ≤ Supply.lastTag)
    (hwidth : ∀ ty, ok ty → ok (ty.arrayOf f.enclosing.level.width))
    (htyped : ∀ n, n ∈ f.enclosing.letBound ∨ n ∈ f.below → st.Types stop ok n) :
    ((f.captured demand).mapM (capture f.enclosing.level.width f.carrier?)).Ends st stop
      fun captures st' => st.Extends stop ok st' ∧
        List.Forall₂ (fun _ c => ok c.input.param.ty ∧
          ∀ o ∈ c.added, ok o.binder.ty ∧ st'.Types stop ok o.binder.name)
          (f.captured demand) captures := by
  have hcaptured : ∀ n ∈ f.captured demand, ∀ s, st.Extends stop ok s →
      (capture f.enclosing.level.width f.carrier? n).Ends s stop fun c s' =>
        s.Extends stop ok s' ∧ ok c.input.param.ty ∧
          ∀ o ∈ c.added, ok o.binder.ty ∧ s'.Types stop ok o.binder.name :=
    fun n hn s hs => capture_ends hs.next_le hwidth (hs.types n (htyped n (of_mem_captured hn).1))
  exact Ends.mapM hnext hcaptured
    fun n c s s' hc hs => ⟨hc.1, fun o ho => ⟨(hc.2 o ho).1, hs.types _ (hc.2 o ho).2⟩⟩

/-- The types of a closed level are those of its frame and of what is handed in. -/
theorem Frame.types_closed {captures : List Capture} (hkind : Kind stop ok bound)
    (hparams : ∀ i ∈ f.enclosing.level.inputs, ok i.param.ty) (hpattern : ∀ b ∈ f.pattern, ok b.ty)
    (hcaptures : ∀ c ∈ captures, ok c.input.param.ty) :
    ∀ b ∈ (f.closed demand captures).params ++ f.pattern, ok b.ty := by
  intro b hb
  rcases List.mem_append.1 hb with hb | hb
  · obtain ⟨r, hr, rfl⟩ := List.mem_map.1 hb
    obtain ⟨i, hi, rfl⟩ := mem_inputs_closed.1 hr
    refine hkind.dims i.param.ty _ RowInput.dims_demote.symm ?_
    rcases hi with ⟨hi, -⟩ | ⟨c, hc, rfl⟩
    · exact hparams i hi
    · exact hcaptures c hc
  · exact hpattern b hb

/-- A level is closed if the types of the names to be handed in are of the kind. So are then the
types of the level and of what is added to the target. -/
theorem Frame.close_ends (hkind : Kind stop ok bound) (hnext : st.supply.next ≤ Supply.lastTag)
    (hwidth : ∀ ty, ok ty → ok (ty.arrayOf f.enclosing.level.width))
    (hparams : ∀ i ∈ f.enclosing.level.inputs, ok i.param.ty) (hpattern : ∀ b ∈ f.pattern, ok b.ty)
    (htyped : ∀ n, n ∈ f.enclosing.letBound ∨ n ∈ f.below → st.Types stop ok n) :
    (f.close bound demand).Ends st stop fun x st' =>
      st.Extends stop ok st' ∧ (∀ b ∈ x.1.params ++ x.1.pattern, ok b.ty) ∧
        ∀ o ∈ x.2, o ∈ f.target ∨ (ok o.binder.ty ∧ st'.Types stop ok o.binder.name) := by
  unfold close
  refine (captures_ends hnext hwidth htyped).bind fun captures s _ hs => ?_
  obtain ⟨hextends, hall⟩ := hs
  have hclosed : ∀ b ∈ (f.closed demand captures).params ++ f.pattern, ok b.ty :=
    types_closed hkind hparams hpattern fun c hc => by
      obtain ⟨n, -, hty, -⟩ := exists_of_mem_right hall hc
      exact hty
  -- The check looks through the closed level as it is written out, so only `erw` finds it.
  dsimp only
  cases hfind : ((f.closed demand captures).params ++ f.pattern).find?
      fun b => b.ty.dimNames.any (· ∈ bound) with
  | some b =>
    erw [hfind]
    have hany := List.find?_some hfind
    obtain ⟨n, hn, hbound⟩ := List.any_eq_true.1 hany
    rcases hkind.irregular b.ty (hclosed b (List.mem_of_find?_eq_some hfind)) with hknown | hstop
    · exact absurd (of_decide_eq_true hbound) (hknown _ (Ty.mem_dimNames.1 hn))
    · exact Or.inl (hstop _)
  | none =>
    erw [hfind]
    refine .pure ⟨hextends, hclosed, fun o ho => ?_⟩
    rcases List.mem_append.1 ho with ho | ho
    · exact Or.inl ho
    · obtain ⟨c, hc, ho⟩ := List.mem_flatMap.1 ho
      obtain ⟨n, -, -, hadded⟩ := exists_of_mem_right hall hc
      exact Or.inr (hadded o ho)

end Frames

/-- What an attempt is given for one map: its width, and the types of its parameters, of the names
of its body and of its outputs. -/
structure Furnished (stop : Stop → Prop) (ok : Ty → Prop) (st : Attempt) (x : Enclosing × Target) :
    Prop where
  width : ∀ ty, ok ty → ok (ty.arrayOf x.1.level.width)
  params : ∀ i ∈ x.1.level.inputs, ok i.param.ty
  letBound : ∀ n ∈ x.1.letBound, st.Types stop ok n
  arrays : ∀ o ∈ x.2, ok o.binder.ty
  outputs : ∀ o ∈ x.2, st.Types stop ok o.binder.name

/-- What a map is given stays given as the attempt goes on. -/
theorem Furnished.of_extends {x : Enclosing × Target} (h : Furnished stop ok st x)
    (hextends : st.Extends stop ok st') : Furnished stop ok st' x where
  width := h.width
  params := h.params
  letBound n hn := hextends.types n (h.letBound n hn)
  arrays := h.arrays
  outputs o ho := hextends.types _ (h.outputs o ho)

/-- The types of the levels built so far and of the targets left behind are of a kind, and so are
those that the arrays of the outermost target have in scope. -/
structure Built.Typed (stop : Stop → Prop) (ok : Ty → Prop) (st : Attempt) (built : Built) : Prop
    where
  levels : ∀ l ∈ built.nest.toList, ∀ b ∈ l.params ++ l.pattern, ok b.ty
  targets : ∀ t ∈ built.targets.toList, ∀ o ∈ t, ok o.binder.ty
  outputs : ∀ o ∈ built.targets.outermost, st.Types stop ok o.binder.name

/-- The types stay of the kind when a level and a target are put around. -/
theorem Built.Typed.pushOuter {built : Built} (h : built.Typed stop ok st) {level : Level}
    {target : Target} {order : List Nat} {demand : Demand}
    (hlevel : ∀ b ∈ level.params ++ level.pattern, ok b.ty)
    (htarget : ∀ o ∈ target, ok o.binder.ty ∧ st'.Types stop ok o.binder.name) :
    Built.Typed stop ok st' ⟨(built.nest.map (Level.permute order)).pushOuter level,
      built.targets.pushOuter target, demand⟩ where
  levels l hl b hb := by
    rw [Stack.toList_pushOuter, Stack.toList_map] at hl
    rcases List.mem_cons.1 hl with rfl | hl
    · exact hlevel b hb
    · obtain ⟨l', hl', rfl⟩ := List.mem_map.1 hl
      refine h.levels l' hl' b ?_
      rcases List.mem_append.1 hb with hb | hb
      · exact List.mem_append_left _ hb
      · exact List.mem_append_right _ (Pattern.mem_of_mem_permute hb)
  targets t ht o ho := by
    rw [Stack.toList_pushOuter] at ht
    rcases List.mem_cons.1 ht with rfl | ht
    · exact (htarget o ho).1
    · exact h.targets t ht o ho
  outputs o ho := (htarget o ho).2

/-- The innermost level ends well, with types of the kind in the level and in the targets. -/
theorem Selection.innermost_ends {targets : Targets} {stms : List Stm} {position : Nat}
    {e : Enclosing} (hkind : Kind stop ok bound) (hnext : st.supply.next ≤ Supply.lastTag)
    (hfurnished : Furnished stop ok st (e, targets.inner)) :
    ((ofStms targets stms).innermost bound position e).Ends st stop fun built st' =>
      st.Extends stop ok st' ∧ built.Typed stop ok st' := by
  have hselected : ∀ o ∈ (ofStms targets stms).restore (ofStms targets stms).targets.inner,
      o ∈ targets.inner := fun o ho => perm_restore_ofStms.subset ho
  unfold innermost
  refine (Frame.close_ends (f := (ofStms targets stms).frame position e) hkind hnext
    hfurnished.width hfurnished.params ?_ ?_).bind fun x s _ hs => .pure ?_
  · intro b hb
    obtain ⟨o, ho, rfl⟩ := List.mem_map.1 hb
    exact hfurnished.arrays o (hselected o (List.mem_append_left _ ho))
  · rintro n (hn | hn)
    · exact hfurnished.letBound n hn
    · exact absurd hn NameSet.not_mem_empty
  · obtain ⟨hextends, hlevel, htarget⟩ := hs
    -- The target is what captures added, and the outputs set aside.
    have hout : ∀ o ∈ (ofStms targets stms).restore x.2,
        ok o.binder.ty ∧ s.Types stop ok o.binder.name := by
      intro o ho
      rcases List.mem_append.1 ho with ho | ho
      · exact (htarget o ho).resolve_left List.not_mem_nil
      · have ho := hselected o (List.mem_append_right _ ho)
        exact ⟨hfurnished.arrays o ho, hextends.types _ (hfurnished.outputs o ho)⟩
    refine ⟨hextends, ⟨fun l hl => ?_, fun t ht o ho => ?_, fun o ho => (hout o ho).2⟩⟩
    · rw [List.mem_singleton.1 hl]
      exact hlevel
    · rw [List.mem_singleton.1 ht] at ho
      exact (hout o ho).1

/-- One more level around those built ends well, and keeps all types of the kind. -/
theorem Built.enclose_ends {built : Built} {position : Nat} {e : Enclosing} {t : Target}
    (hkind : Kind stop ok bound) (hnext : st.supply.next ≤ Supply.lastTag)
    (hfurnished : Furnished stop ok st (e, t)) (hbuilt : built.Typed stop ok st) :
    (built.enclose bound position e t).Ends st stop fun built' st' =>
      st.Extends stop ok st' ∧ built'.Typed stop ok st' := by
  have hdivides := Division.divides_ofTarget built.nest.outermost.pattern t
  have hinner : ∀ b ∈ built.nest.outermost.pattern, ok b.ty := fun b hb =>
    hbuilt.levels _ built.nest.outermost_mem b (List.mem_append_right _ hb)
  unfold enclose
  have hnew : (((Division.ofTarget built.nest.outermost.pattern t).untaken
      built.nest.outermost.pattern).mapM (newOutput e.level.width)).Ends st stop
        fun new s => st.Extends stop ok s ∧ List.Forall₂ (fun _ out => ok out.binder.ty)
          ((Division.ofTarget built.nest.outermost.pattern t).untaken
            built.nest.outermost.pattern) new :=
    Ends.mapM hnext (fun x hx s hs => newOutput_ends hs.next_le hfurnished.width
      (hinner _ (List.mem_of_getElem? (Division.Divides.getElem?_of_mem_untaken hx))))
      fun _ _ _ _ hout _ => hout
  refine hnew.bind fun new s _ hs => ?_
  obtain ⟨hextends, hall⟩ := hs
  have hpattern : ∀ b ∈ (((Division.ofTarget built.nest.outermost.pattern t).taken ++ new).map
      (·.binder)), ok b.ty := by
    intro b hb
    obtain ⟨x, hx, rfl⟩ := List.mem_map.1 hb
    rcases List.mem_append.1 hx with hx | hx
    · obtain ⟨c, -, hmem⟩ := hdivides.taken x hx
      exact hfurnished.arrays _ hmem
    · obtain ⟨y, -, hty⟩ := exists_of_mem_right hall hx
      exact hty
  have hfurnished := hfurnished.of_extends hextends
  refine (Frame.close_ends (f := built.frame position e
    (Division.ofTarget built.nest.outermost.pattern t) new) hkind hextends.next_le
    hfurnished.width hfurnished.params hpattern ?_).bind fun x s' _ hs' => .pure ?_
  · rintro n (hn | hn)
    · exact hfurnished.letBound n hn
    · obtain ⟨o, ho, rfl⟩ := Target.mem_names_pattern.1 (NameSet.mem_ofList.1 hn)
      exact hextends.types _ (hbuilt.outputs o ho)
  · obtain ⟨hextends', hlevel, htarget⟩ := hs'
    have hout : ∀ o ∈ x.2, ok o.binder.ty ∧ s'.Types stop ok o.binder.name := by
      intro o ho
      rcases htarget o ho with ho | ho
      · have ho := hdivides.kept.subset ho
        exact ⟨hfurnished.arrays o ho, hextends'.types _ (hfurnished.outputs o ho)⟩
      · exact ho
    exact ⟨hextends.trans hextends', hbuilt.pushOuter hlevel hout⟩

/-- All levels around those built end well, by induction from the inside. -/
theorem Built.encloseAll_ends {inner : Built} {levels : List (Enclosing × Target)} {position : Nat}
    (hkind : Kind stop ok bound) (hnext : st.supply.next ≤ Supply.lastTag)
    (hfurnished : ∀ x ∈ levels, Furnished stop ok st x) (hinner : inner.Typed stop ok st) :
    (inner.encloseAll bound position levels).Ends st stop fun built st' =>
      st.Extends stop ok st' ∧ built.Typed stop ok st' := by
  induction levels generalizing position with
  | nil => exact .pure ⟨.refl hnext, hinner⟩
  | cons x rest ih =>
    rw [encloseAll]
    refine (ih fun y hy => hfurnished y (List.mem_cons_of_mem _ hy)).bind fun built s _ hs => ?_
    obtain ⟨hextends, hbuilt⟩ := hs
    have hx := (hfurnished x (List.mem_cons_self ..)).of_extends hextends
    exact (enclose_ends hkind hextends.next_le hx hbuilt).imp fun built' s' hs' =>
      ⟨hextends.trans hs'.1, hs'.2⟩

/-- A kernel nest is built from types of a kind, with one target for each map. -/
theorem Selection.kernelNest_ends {nesting : Nesting} {targets : Targets} {stms : List Stm}
    (hdepth : nesting.depth = targets.depth) (hkind : Kind stop ok nesting.bound)
    (hnext : st.supply.next ≤ Supply.lastTag)
    (hfurnished : ∀ x ∈ nesting.levels targets, Furnished stop ok st x) :
    ((ofStms targets stms).kernelNest nesting).Ends st stop fun x st' =>
      st'.supply.next ≤ Supply.lastTag ∧
        (∀ l ∈ x.2.toList, ∀ b ∈ l.params ++ l.pattern, ok b.ty) ∧
        ∀ t ∈ x.1.toList, ∀ o ∈ t, ok o.binder.ty := by
  have hinner := hfurnished _ (List.mem_append_right _ (List.mem_singleton_self _))
  have houter : ∀ x ∈ nesting.outer.zip targets.outer, Furnished stop ok st x :=
    fun x hx => hfurnished x (List.mem_append_left _ hx)
  unfold kernelNest
  rw [if_pos (show nesting.depth = (ofStms targets stms).targets.depth from hdepth)]
  refine (innermost_ends hkind hnext hinner).bind fun built s _ hs => ?_
  obtain ⟨hextends, hbuilt⟩ := hs
  refine (Built.encloseAll_ends hkind hextends.next_le
    (fun x hx => (houter x hx).of_extends hextends) hbuilt).bind fun built' s' _ hs' => .pure ?_
  exact ⟨hs'.1.next_le, hs'.2.levels, hs'.2.targets⟩

end MapNest
