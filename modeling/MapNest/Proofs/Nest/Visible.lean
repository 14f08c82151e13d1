import MapNest.Proofs.Analysis.Free
import MapNest.Proofs.Nest.Builds

/-!
# `MapNest.Proofs.Nest.Visible`: which names are visible where

Outside some maps around one another, all that they declare is `hidden` but for the arrays that the
outermost of them produces (`produced`). What a level of a kernel nest binds is hidden outside the
maps it was built from (`Builds.mem_hidden_of_mem_bound`). What its map mentions of the names
outside stays visible when the targets further inside have changed
(`Consistent.not_mem_inside_retarget`), and an array that hands in a value is visible as well
(`Frame.Closes.supplied`).
-/

set_option autoImplicit false

namespace MapNest

/-- The names that are not visible outside some maps around one another. -/
def hidden : List (Enclosing × Target) → List Name
  | [] => []
  | (e, _) :: within => e.inside within

/-- The arrays that the outermost of some maps produces. -/
def produced : List (Enclosing × Target) → List Name
  | [] => []
  | (_, t) :: _ => Pattern.names (Target.pattern t)

/-- What some maps declare is what the outermost of them produces and what is hidden outside it. -/
theorem declared_eq (levels : List (Enclosing × Target)) :
    declared levels = produced levels ++ hidden levels := by
  cases levels with
  | nil => rfl
  | cons x within => exact declared_cons

variable {s : Selection} {bound : NameSet} {levels within outer : List (Enclosing × Target)}
  {lo hi : Nat} {built : Built} {n : Name}

/-- What a map of a list binds is not visible outside the list. -/
theorem mem_hidden_of_mem_bound {x : Enclosing × Target} (hx : x ∈ levels) (hn : n ∈ x.1.bound) :
    n ∈ hidden levels := by
  cases levels with
  | nil => cases hx
  | cons y within =>
    show n ∈ y.1.inside within
    rw [Enclosing.mem_inside]
    rcases List.mem_cons.1 hx with rfl | hx
    · exact Or.inl hn
    · refine Or.inr (List.mem_flatMap.2 ⟨x, hx, List.mem_append_right _ ?_⟩)
      exact Enclosing.mem_names.2 hn

/-- What a nest binds is hidden outside the whole nest. -/
theorem Nesting.mem_hidden_levels {nesting : Nesting} {targets : Targets}
    (hdepth : nesting.depth = targets.depth) (hn : n ∈ nesting.bound) :
    n ∈ hidden (nesting.levels targets) := by
  obtain ⟨e, he, hn⟩ := Nesting.mem_bound.1 hn
  obtain ⟨x, hx, rfl⟩ := (Nesting.mem_toList_iff hdepth).1 he
  exact mem_hidden_of_mem_bound hx hn

namespace Frame.Closes

variable {f : Frame} {demand : Demand} {captures : List Capture}

/-- Whatever a level binds is bound by its map, or produced by the map just inside. -/
theorem mem_inside_of_mem_bound (h : f.Closes bound demand captures lo hi)
    (hbelow : ∀ n ∈ f.below, n ∈ produced within)
    (hn : n ∈ (f.closed demand captures).bound) : n ∈ f.enclosing.inside within := by
  rw [Enclosing.mem_inside, declared_eq, List.mem_append, Enclosing.mem_bound, Level.mem_bound]
  rcases (Frame.mem_bound_closed h.names).1 hn with hindex | ⟨-, hparam⟩ | hcaptured
  · exact Or.inl (Or.inr (Or.inl hindex))
  · exact Or.inl (Or.inr (Or.inr hparam))
  · rcases (Frame.of_mem_captured hcaptured).1 with hlet | hproduced
    · exact Or.inl (Or.inl hlet)
    · exact Or.inr (Or.inl (hbelow n hproduced))

/-- Every capture reads an array that is visible outside the map and that the map left behind
returns the captured value into. -/
theorem supplied {t : Target} (within : List (Enclosing × Target))
    (h : f.Closes bound demand captures lo hi)
    (hcarrier : ∀ n b, f.carrier? n = some b →
      ⟨b, .var n⟩ ∈ t ∧ b.name ∉ f.enclosing.inside within)
    (htags : ∀ n ∈ f.enclosing.inside within, n.tag < lo)
    (hadded : ∀ c ∈ captures, ∀ o ∈ c.added, o ∈ t) :
    ∀ c ∈ captures, c.input.array ∉ f.enclosing.inside within ∧
      ∃ o ∈ t, o.binder.name = c.input.array ∧ o.value = .var c.input.param.name := by
  intro c hc
  cases h.drawn c hc with
  | carried b hb harray _ =>
    obtain ⟨ho, hout⟩ := hcarrier _ b hb
    exact ⟨harray ▸ hout, _, ho, harray.symm, rfl⟩
  | fresh hlo hhi hc' =>
    -- A new array is bound nowhere inside, and the map left behind returns the value into it.
    have ho : _ ∈ c.added := hc' ▸ List.mem_singleton_self _
    refine ⟨?_, _, hadded c hc _ ho, rfl, rfl⟩
    intro hn
    have := htags _ hn
    omega

end Frame.Closes

namespace Consistent

variable {nesting : Nesting} {targets : Targets} {e : Enclosing} {t : Target}

/-- What is bound inside a map of the nest is older than the names to be drawn. -/
theorem tag_lt_of_mem_inside (hc : Consistent nesting targets lo)
    (hl : nesting.levels targets = outer ++ (e, t) :: within)
    (hn : n ∈ e.inside within) : n.tag < lo := by
  apply hc.tags_declared n
  rw [hl, mem_declared_append, declared_cons, List.mem_append]
  exact Or.inr (Or.inr hn)

/-- What is bound inside a map, with new targets further inside, is older than the names drawn after
those targets. -/
theorem tag_lt_of_mem_inside_retarget (hc : Consistent nesting targets lo)
    (hl : nesting.levels targets = outer ++ (e, t) :: within)
    (hwithin : Builds s bound within lo hi built)
    (hn : n ∈ e.inside (retarget within built.targets)) : n.tag < hi := by
  have hle := hwithin.le
  rcases Enclosing.mem_inside.1 hn with hn | hn
  · have := hc.tag_lt_of_mem_inside hl (Enclosing.mem_inside.2 (Or.inl hn))
    omega
  · rcases hwithin.mem_declared hn with hn | hn
    · have := hc.tag_lt_of_mem_inside hl (Enclosing.mem_inside.2 (Or.inr hn))
      omega
    · exact hn.2

/-- What a map mentions and does not bind inside is not bound inside when the targets have
changed. -/
theorem not_mem_inside_retarget (hc : Consistent nesting targets lo)
    (hl : nesting.levels targets = outer ++ (e, t) :: within)
    (hwithin : Builds s bound within lo hi built) (hn : e.level.Mentions n)
    (hout : n ∉ e.inside within) : n ∉ e.inside (retarget within built.targets) := by
  rw [Enclosing.mem_inside, not_or] at hout ⊢
  refine ⟨hout.1, ?_⟩
  intro hdeclared
  rcases hwithin.mem_declared hdeclared with hdeclared | ⟨hlo, -⟩
  · exact hout.2 hdeclared
  · -- The name would be new, but the map mentions it already.
    have hfree : n ∈ e.level.free := by
      rw [Level.mem_free_iff_mentions]
      exact ⟨hn, fun hbound => hout.1 (Enclosing.mem_bound.2 (Or.inr hbound))⟩
    have := hc.tags_free e (hc.mem_toList hl) n (NameSet.mem_toList.2 hfree)
    omega

/-- An array that a map draws from is not bound inside the map, with new targets either. -/
theorem array_not_mem_inside_retarget (hc : Consistent nesting targets lo)
    (hl : nesting.levels targets = outer ++ (e, t) :: within)
    (hwithin : Builds s bound within lo hi built) {r : RowInput} (hr : r ∈ e.level.inputs) :
    r.array ∉ e.inside (retarget within built.targets) :=
  hc.not_mem_inside_retarget hl hwithin (Or.inr (Or.inr (Or.inr ⟨r, hr, rfl⟩)))
    (hc.array_not_mem_inside hl hr)

/-- The captures of the innermost level read arrays that are visible around its map. -/
theorem innermost_supplied {f : Frame} {demand : Demand} {captures : List Capture}
    (hc : Consistent nesting targets lo)
    (hl : nesting.levels targets = outer ++ [(f.enclosing, t)])
    (hcarrier : ∀ n b, f.carrier? n = some b → ⟨b, n⟩ ∈ s.passed)
    (hpassed : ∀ p ∈ s.passed, p.output ∈ t)
    (hcloses : f.Closes bound demand captures lo hi) :
    ∀ c ∈ captures, c.input.array ∉ f.enclosing.inside [] ∧
      ∃ o ∈ s.restore (captures.flatMap (·.added)),
        o.binder.name = c.input.array ∧ o.value = .var c.input.param.name := by
  apply hcloses.supplied
  · -- An array that carries a value is one of those set aside, and the map produces it.
    intro n b hb
    have hp := hcarrier n b hb
    exact ⟨List.mem_append_right _ (List.mem_map_of_mem hp),
      hc.output_not_mem_inside hl (hpassed _ hp)⟩
  · intro n hn
    exact hc.tag_lt_of_mem_inside hl hn
  · intro c hcap o ho
    exact List.mem_append_left _ (List.mem_flatMap.2 ⟨c, hcap, ho⟩)

/-- So do the captures of a level put around others. None of their arrays carried a value before. -/
theorem enclose_supplied {f : Frame} {demand : Demand} {captures : List Capture} {mid : Nat}
    (hc : Consistent nesting targets lo)
    (hl : nesting.levels targets = outer ++ (f.enclosing, t) :: within)
    (hwithin : Builds s bound within lo mid built) (hcarrier : ∀ n, f.carrier? n = none)
    (hcloses : f.Closes bound demand captures mid hi) :
    ∀ c ∈ captures, c.input.array ∉ f.enclosing.inside (retarget within built.targets) ∧
      ∃ o ∈ f.target ++ captures.flatMap (·.added),
        o.binder.name = c.input.array ∧ o.value = .var c.input.param.name := by
  apply hcloses.supplied
  · intro n b hb
    rw [hcarrier] at hb
    cases hb
  · -- What the maps inside bind by now is older than the names drawn for this level.
    intro n hn
    exact hc.tag_lt_of_mem_inside_retarget hl hwithin hn
  · intro c hcap o ho
    exact List.mem_append_right _ (List.mem_flatMap.2 ⟨c, hcap, ho⟩)

end Consistent

namespace Builds

/-- The new targets of the outermost map say which arrays it produces. -/
theorem mem_produced (h : Builds s bound levels lo hi built) :
    n ∈ produced (retarget levels built.targets) ↔
      ∃ o ∈ built.targets.outermost, o.binder.name = n := by
  cases h <;> exact Target.mem_names_pattern

/-- What the outermost map left behind produces it produced before, or it is new. -/
theorem mem_produced_or_new (h : Builds s bound levels lo hi built)
    (hn : n ∈ produced (retarget levels built.targets)) : n ∈ produced levels ∨ lo ≤ n.tag := by
  obtain ⟨o, ho, rfl⟩ := h.mem_produced.1 hn
  obtain ⟨rest, hrest⟩ := built.targets.exists_toList_eq_cons
  have hall := h.outputs_origin
  rw [hrest] at hall
  cases hall with
  | cons hhead _ =>
    rcases hhead o ho with hold | hnew
    · exact Or.inl (Target.mem_names_pattern.2 ⟨o, hold, rfl⟩)
    · exact Or.inr hnew.1

/-- An array that the outermost map leaves behind is declared by the maps, or it is new. -/
theorem declared_of_mem_outermost (h : Builds s bound levels lo hi built)
    (hn : n ∈ Pattern.names (Target.pattern built.targets.outermost)) :
    n ∈ declared levels ∨ (lo ≤ n.tag ∧ n.tag < hi) := by
  refine h.mem_declared ?_
  rw [declared_eq]
  exact List.mem_append_left _ (h.mem_produced.2 (Target.mem_names_pattern.1 hn))

/-- Whatever the levels built bind is not visible outside the maps. -/
theorem mem_hidden_of_mem_bound (h : Builds s bound levels lo hi built) {l : Level}
    (hl : l ∈ built.nest.toList) (hn : n ∈ l.bound) :
    n ∈ hidden (retarget levels built.targets) := by
  induction h generalizing l with
  | @innermost t f captures lo hi hbelow _ _ _ _ _ hcloses =>
    rw [List.mem_singleton.1 hl] at hn
    exact hcloses.mem_inside_of_mem_bound (fun n hn => absurd hn (hbelow n)) hn
  | @enclose within t built f captures order lo mid hi hwithin hbelow _ _ _ _ hcloses ih =>
    rw [retarget_pushOuter]
    rw [Stack.toList_pushOuter, Stack.toList_map] at hl
    -- The level is the new one, or it was built before and is hidden by the maps inside already.
    rcases List.mem_cons.1 hl with rfl | hl
    · refine hcloses.mem_inside_of_mem_bound (fun m hm => ?_) hn
      exact hwithin.mem_produced.2 ((hbelow m).1 hm)
    · obtain ⟨l', hl', rfl⟩ := List.mem_map.1 hl
      have hinner := ih hl' hn
      rw [hidden, Enclosing.mem_inside, declared_eq, List.mem_append]
      exact Or.inr (Or.inr hinner)

end Builds

end MapNest
