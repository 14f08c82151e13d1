import MapNest.Proofs.Freshen.Draws

/-!
# `MapNest.Proofs.Ends`: how attempts end

`AttemptM.Ends` says how an action ends when it is run from a state: it succeeds and leaves what is
asked for, or it stops for a reason that is allowed, or it has used up all tags. It is a weakest
precondition, with one rule for each way to put actions together (`Ends.bind`, `Ends.mapM`) and one
lemma for each step. If no failure is allowed, it says that what the attempt is given does not
contradict itself; if everything is, it says what a result is like.

An attempt may fail because a name has no type. Names that have a type keep one, and one of the same
kind if only types of that kind are given (`Attempt.Extends`); so every rule speaks of a kind of
types.
-/

set_option autoImplicit false

namespace MapNest

namespace AttemptM

variable {α β : Type} {st st' : Attempt} {stop : Stop → Prop}

/-- Run from a state, an action succeeds and leaves what is asked for; or it stops for a reason that
is allowed; or there are not tags enough, and all of them are used up. -/
def Ends (act : AttemptM α) (st : Attempt) (stop : Stop → Prop)
    (post : α → Attempt → Prop) : Prop :=
  match act st with
  | .ok a st' => post a st'
  | .error e st' => stop e ∨ (e = .failed .overflow ∧ st'.supply.next = Supply.lastTag)

namespace Ends

variable {act : AttemptM α} {f : α → AttemptM β} {post mid : α → Attempt → Prop}
  {post' : β → Attempt → Prop}

/-- A result ends well if it is what is asked for. -/
theorem pure {a : α} (h : post a st) : (Pure.pure a : AttemptM α).Ends st stop post := h

/-- What is asked for holds of a result that is at hand. -/
theorem of_eq_ok {a : α} (h : act.Ends st stop post) (hact : act st = .ok a st') : post a st' := by
  unfold Ends at h
  rw [hact] at h
  exact h

/-- More reasons may be allowed, and less be asked for. -/
theorem mono {stop' : Stop → Prop} (h : act.Ends st stop mid) (hstop : ∀ e, stop e → stop' e)
    (hpost : ∀ a s, mid a s → post a s) : act.Ends st stop' post := by
  unfold Ends at h ⊢
  cases hact : act st with
  | ok a s =>
    rw [hact] at h
    exact hpost a s h
  | error e s =>
    rw [hact] at h
    exact h.imp_left (hstop e)

/-- Less may be asked for. -/
theorem imp (h : act.Ends st stop mid) (hpost : ∀ a s, mid a s → post a s) :
    act.Ends st stop post :=
  h.mono (fun _ he => he) hpost

/-- Two actions end well if the first does, and the second wherever the first leads to. -/
theorem bind (h : act.Ends st stop mid)
    (hf : ∀ a s, act st = .ok a s → mid a s → (f a).Ends s stop post') :
    (act >>= f).Ends st stop post' := by
  unfold Ends at h
  show match EStateM.bind act f st with
    | .ok b s => post' b s
    | .error e s => stop e ∨ (e = .failed .overflow ∧ s.supply.next = Supply.lastTag)
  unfold EStateM.bind
  cases hact : act st with
  | ok a s =>
    rw [hact] at h
    exact hf a s hact h
  | error e s =>
    rw [hact] at h
    exact h

/-- The three ways to end, spelled out. -/
theorem cases (h : act.Ends st stop post) :
    (∃ a st', act st = .ok a st' ∧ post a st') ∨ (∃ e st', act st = .error e st' ∧ stop e) ∨
      ∃ st', act st = .error (.failed .overflow) st' ∧ st'.supply.next = Supply.lastTag := by
  unfold Ends at h
  cases hact : act st with
  | ok a s =>
    rw [hact] at h
    exact Or.inl ⟨a, s, rfl, h⟩
  | error e s =>
    rw [hact] at h
    rcases h with hstop | ⟨rfl, hnext⟩
    · exact Or.inr (Or.inl ⟨e, s, rfl, hstop⟩)
    · exact Or.inr (Or.inr ⟨s, rfl, hnext⟩)

end Ends

end AttemptM

/-! ### Types in scope -/

/-- Types of any kind. -/
def Ty.Any (_ : Ty) : Prop := True

namespace Attempt

variable {stop : Stop → Prop} {ok : Ty → Prop} {st st₁ st' : Attempt} {n : Name}

/-- The type of a name is of a kind. If the name has none, looking for it stops the attempt, which
has to be allowed. -/
def Types (stop : Stop → Prop) (ok : Ty → Prop) (st : Attempt) (n : Name) : Prop :=
  match st.scope.lookup? n with
  | some ty => ok ty
  | none => stop (.failed (.unboundName n))

/-- Later in an attempt, all tags are still within their range, and types that were of a kind are of
that kind. -/
structure Extends (stop : Stop → Prop) (ok : Ty → Prop) (st st' : Attempt) : Prop where
  next_le : st'.supply.next ≤ Supply.lastTag
  types : ∀ n, st.Types stop ok n → st'.Types stop ok n

/-- A state whose tags are within their range extends itself. -/
theorem Extends.refl (h : st.supply.next ≤ Supply.lastTag) : st.Extends stop ok st :=
  ⟨h, fun _ hn => hn⟩

/-- Two extensions one after the other. -/
theorem Extends.trans (h : st.Extends stop ok st₁) (h' : st₁.Extends stop ok st') :
    st.Extends stop ok st' :=
  ⟨h'.next_le, fun n hn => h'.types n (h.types n hn)⟩

/-- No type changes if the scope stays. -/
theorem Extends.of_scope_eq (h : st'.supply.next ≤ Supply.lastTag) (hscope : st'.scope = st.scope) :
    st.Extends stop ok st' := by
  refine ⟨h, fun n hn => ?_⟩
  rw [Types, hscope]
  exact hn

/-- A type of the kind may be given to one more name. -/
theorem types_insert {b : Binder} (hty : ok b.ty) (h : st.Types stop ok n ∨ n = b.name) :
    Attempt.Types stop ok { st with scope := st.scope.insert b } n := by
  by_cases hn : b.name = n
  · subst hn
    simpa [Types] using hty
  · have hold := h.resolve_right fun heq => hn heq.symm
    unfold Types at hold ⊢
    rw [Scope.lookup?_insert_of_ne hn]
    exact hold

end Attempt

/-! ### Steps -/

namespace AttemptM

variable {α β : Type} {st : Attempt} {stop : Stop → Prop}

/-- What only draws names ends well. -/
theorem ends_of_draws (ok : Ty → Prop) {act : FreshM α} {k : Nat} (h : Draws Supply.next act k)
    (hnext : st.supply.next ≤ Supply.lastTag) :
    (liftM act : AttemptM α).Ends st stop fun a st' =>
      st.Extends stop ok st' ∧ act st.supply = .ok a st'.supply := by
  unfold Ends
  simp only [liftM, monadLift, MonadLift.monadLift]
  rcases h.cases hnext with ⟨hk, a, supply, hact, heq⟩ | ⟨-, supply, hact, heq⟩
  · rw [hact]
    exact ⟨.of_scope_eq (by show supply.next ≤ _; omega) rfl, rfl⟩
  · rw [hact]
    exact Or.inr ⟨rfl, heq⟩

/-- A fresh binder has the type that it is given, which is of the kind at hand. -/
theorem freshBinder_ends (ok : Ty → Prop) {n : Name} {suffix : String} {ty : Ty}
    (hnext : st.supply.next ≤ Supply.lastTag) (hty : ok ty) :
    (freshBinder n suffix ty).Ends st stop fun b st' =>
      st.Extends stop ok st' ∧ b.ty = ty ∧ st'.Types stop ok b.name := by
  refine (ends_of_draws ok Supply.fresh_draws hnext).bind fun m s _ hs => ?_
  obtain ⟨hextends, -⟩ := hs
  -- The type is given to the name at once.
  refine ⟨⟨hextends.next_le, fun k hk => ?_⟩, rfl, ?_⟩
  · exact Attempt.types_insert hty (Or.inl (hextends.types k hk))
  · exact Attempt.types_insert hty (Or.inr rfl)

/-- The type of a name is found, and is of a kind, if it was of that kind before. -/
theorem typeOf_ends {ok : Ty → Prop} {n : Name} (h : st.Types stop ok n) :
    (typeOf n).Ends st stop fun ty st' => st' = st ∧ ok ty := by
  show AttemptM.Ends (match st.scope.lookup? n with
    | some ty => Pure.pure ty
    | none => fail (.unboundName n)) st stop _
  unfold Attempt.Types at h
  cases hlookup : st.scope.lookup? n with
  | some ty =>
    rw [hlookup] at h
    exact .pure ⟨rfl, h⟩
  | none =>
    rw [hlookup] at h
    exact Or.inl h

/-- If each step of a run ends well, so does the run. What a step leaves has to last. -/
theorem Ends.mapM {ok : Ty → Prop} {f : α → AttemptM β} {P : α → β → Attempt → Prop} {l : List α}
    (hnext : st.supply.next ≤ Supply.lastTag)
    (hf : ∀ a ∈ l, ∀ s, st.Extends stop ok s →
      (f a).Ends s stop fun b s' => s.Extends stop ok s' ∧ P a b s')
    (hlast : ∀ a b s s', P a b s → s.Extends stop ok s' → P a b s') :
    (l.mapM f).Ends st stop fun bs s' =>
      st.Extends stop ok s' ∧ List.Forall₂ (fun a b => P a b s') l bs := by
  induction l generalizing st with
  | nil => exact .pure ⟨.refl hnext, .nil⟩
  | cons a l ih =>
    rw [List.mapM_cons]
    refine (hf a (List.mem_cons_self ..) st (.refl hnext)).bind fun b s _ hs => ?_
    obtain ⟨hextends, hb⟩ := hs
    have hrest := ih hextends.next_le fun a ha s' hs' =>
      hf a (List.mem_cons_of_mem _ ha) s' (hextends.trans hs')
    refine hrest.bind fun bs s' _ hs' => .pure ?_
    obtain ⟨hextends', hbs⟩ := hs'
    exact ⟨hextends.trans hextends', .cons (hlast a b s s' hb hextends') hbs⟩

/-- A run of steps that draw names ends well, if nothing else is asked of them. -/
theorem Ends.mapM_extends (ok : Ty → Prop) {f : α → AttemptM β} {l : List α}
    (hnext : st.supply.next ≤ Supply.lastTag)
    (hf : ∀ a ∈ l, ∀ s, s.supply.next ≤ Supply.lastTag →
      (f a).Ends s stop fun _ s' => s.Extends stop ok s') :
    (l.mapM f).Ends st stop fun bs s' => st.Extends stop ok s' ∧ l.length = bs.length := by
  have hstep : ∀ a ∈ l, ∀ s, st.Extends stop ok s →
      (f a).Ends s stop fun _ s' => s.Extends stop ok s' ∧ True :=
    fun a ha s hs => (hf a ha s hs.next_le).imp fun _ _ h => ⟨h, trivial⟩
  exact (Ends.mapM (P := fun _ _ _ => True) hnext hstep fun _ _ _ _ _ _ => trivial).imp
    fun _ _ h => ⟨h.1, h.2.length_eq⟩

end AttemptM

end MapNest
