import Mathlib.Data.List.Forall2
import Mathlib.Data.List.Nodup
import Mathlib.Tactic.Ring

/-!
# `MapNest.Proofs.Semantics.Layout`: the elements of an array in another order

A `Layout` of an array with some dimensions is a shape with an index of the array for each index of
the shape: the place where the element comes from. It reads elements that exist only
(`Layout.within`). A copy reads each element where it goes to. A rearrangement permutes the numbers
of the index. A reshaping goes by the number that an element has in row-major order, which stays the
same (`Layout.rowMajor_source`).

An array of some outer dimensions holds a part at each of their points. `Layout.Lifts` says that a
layout of the whole array leaves the parts where they are and does the same to each of them. The
three layouts are lifted in their own ways:

    same dims                ↦   same (outer ++ dims)
    rearranged perm          ↦   rearranged (range n ++ perm.map (· + n))    where n = outer.length
    reshaped shape           ↦   reshaped (outer ++ shape)

For the second, the place of a number in the longer permutation is found in the two halves apart
(`placesOf_behind`). For the third, an index of the whole array has the number `n * size + m`, where
`n` is the number of the point, `m` that of the index in the part, and `size` the number of elements
in a part. Dividing takes it apart again as the part is not empty if it has an index
(`ofRowMajor_append`).
-/

set_option autoImplicit false

namespace MapNest

variable {dims outer shape ix point perm : List Nat}

/-- An index of an array: a number for each dimension, below its size. -/
def Within (ix dims : List Nat) : Prop := List.Forall₂ (· < ·) ix dims

instance : Decidable (Within ix dims) :=
  decidable_of_iff (ix.length = dims.length ∧ ∀ p ∈ ix.zip dims, p.1 < p.2) <| by
    rw [Within, List.forall₂_iff_zip]
    exact and_congr_right fun _ => Prod.forall

/-- An index has a number for each dimension. -/
theorem Within.length_eq (h : Within ix dims) : ix.length = dims.length := List.Forall₂.length_eq h

/-! ### Row-major order -/

/-- The number of an index in row-major order: the last dimension counts fastest. -/
def rowMajor : List Nat → List Nat → Nat
  | _ :: dims, i :: ix => i * dims.prod + rowMajor dims ix
  | _, _ => 0

/-- The index of a number in row-major order. -/
def ofRowMajor : List Nat → Nat → List Nat
  | [], _ => []
  | _ :: dims, n => n / dims.prod :: ofRowMajor dims (n % dims.prod)

/-- The number of an index is below the number of elements. -/
theorem rowMajor_lt (h : Within ix dims) : rowMajor dims ix < dims.prod := by
  induction h with
  | nil => exact Nat.one_pos
  | @cons i d ix dims hi _ ih =>
    rw [rowMajor, List.prod_cons]
    calc i * dims.prod + rowMajor dims ix
      _ < i * dims.prod + dims.prod := by omega
      _ = (i + 1) * dims.prod := (Nat.succ_mul ..).symm
      _ ≤ d * dims.prod := Nat.mul_le_mul_right _ hi

/-- Where there is an index there is no dimension of size zero. -/
theorem prod_tail_pos {d n : Nat} (h : n < (d :: dims).prod) : 0 < dims.prod := by
  refine Nat.pos_of_ne_zero fun hzero => ?_
  rw [List.prod_cons, hzero] at h
  omega

/-- A number below the number of elements is that of an index. -/
theorem within_ofRowMajor {n : Nat} (h : n < dims.prod) : Within (ofRowMajor dims n) dims := by
  induction dims generalizing n with
  | nil => exact .nil
  | cons d dims ih =>
    have hpos := prod_tail_pos h
    rw [List.prod_cons, Nat.mul_comm] at h
    exact .cons (Nat.div_lt_of_lt_mul h) (ih (Nat.mod_lt _ hpos))

/-- Numbering an index and going back. -/
theorem ofRowMajor_rowMajor (h : Within ix dims) : ofRowMajor dims (rowMajor dims ix) = ix := by
  induction h with
  | nil => rfl
  | @cons i d ix dims _ hix ih =>
    have hlt := rowMajor_lt hix
    have hpos : 0 < dims.prod := by omega
    rw [rowMajor, ofRowMajor, Nat.mul_comm, Nat.mul_add_div hpos, Nat.mul_add_mod,
      Nat.div_eq_of_lt hlt, Nat.mod_eq_of_lt hlt, ih, Nat.add_zero]

/-- Going to the index of a number and back. -/
theorem rowMajor_ofRowMajor {n : Nat} (h : n < dims.prod) :
    rowMajor dims (ofRowMajor dims n) = n := by
  induction dims generalizing n with
  | nil => exact (Nat.lt_one_iff.1 h).symm
  | cons d dims ih =>
    rw [ofRowMajor, rowMajor, ih (Nat.mod_lt _ (prod_tail_pos h)), Nat.mul_comm]
    exact Nat.div_add_mod ..

/-- An index in a part is counted after the parts at the points before. -/
theorem rowMajor_append (h : point.length = outer.length) :
    rowMajor (outer ++ dims) (point ++ ix)
      = rowMajor outer point * dims.prod + rowMajor dims ix := by
  induction outer generalizing point with
  | nil =>
    rw [List.length_eq_zero_iff.1 h]
    exact (Nat.zero_add _).symm.trans (congrArg (· + _) (Nat.zero_mul _).symm)
  | cons d outer ih =>
    obtain ⟨i, point, rfl⟩ := List.exists_cons_of_length_eq_add_one h
    have hlen : point.length = outer.length := by simpa using h
    rw [List.cons_append, List.cons_append, rowMajor, ih hlen, rowMajor, List.prod_append]
    ring

/-- The index of a number in a whole array is the point of its part, followed by the index in the
part. -/
theorem ofRowMajor_append {n m : Nat} (hn : n < outer.prod) (hm : m < dims.prod) :
    ofRowMajor (outer ++ dims) (n * dims.prod + m) = ofRowMajor outer n ++ ofRowMajor dims m := by
  induction outer generalizing n with
  | nil =>
    rw [Nat.lt_one_iff.1 hn, Nat.zero_mul, Nat.zero_add]
    rfl
  | cons d outer ih =>
    -- The part makes up the remainder, so the first number is the same as without the part.
    have hdiv : (n * dims.prod + m) / dims.prod = n := by
      rw [Nat.mul_comm, Nat.mul_add_div (by omega), Nat.div_eq_of_lt hm, Nat.add_zero]
    have hhead : (n * dims.prod + m) / (dims.prod * outer.prod) = n / outer.prod := by
      rw [← Nat.div_div_eq_div_mul, hdiv]
    have htail : (n * dims.prod + m) % (dims.prod * outer.prod)
        = n % outer.prod * dims.prod + m := by
      rw [Nat.mod_mul, hdiv, Nat.mul_comm n, Nat.mul_add_mod, Nat.mod_eq_of_lt hm, Nat.add_comm,
        Nat.mul_comm (n % outer.prod)]
    rw [List.cons_append, ofRowMajor, List.prod_append, Nat.mul_comm outer.prod, hhead, htail,
      ih (Nat.mod_lt _ (prod_tail_pos hn)), ofRowMajor, List.cons_append]

/-! ### Permutations of dimensions -/

/-- The numbers of a list at some places, in the order of the places. -/
def pick (l places : List Nat) : List Nat := places.map (l.getD · 0)

/-- The places where the numbers of a permutation stand in it. -/
def placesOf (perm : List Nat) : List Nat := (List.range perm.length).map perm.idxOf

/-- A permutation of dimensions behind some outer ones, which stay where they are. -/
def behind (outer : Nat) (perm : List Nat) : List Nat := List.range outer ++ perm.map (· + outer)

/-- The numbers of an index at some places are an index for the sizes at these places. -/
theorem within_pick {places : List Nat} (h : Within ix dims)
    (hplaces : ∀ k ∈ places, k < dims.length) : Within (pick ix places) (pick dims places) := by
  rw [pick, pick, Within, List.forall₂_map_left_iff, List.forall₂_map_right_iff, List.forall₂_same]
  intro k hk
  have hk := hplaces k hk
  have hlt := (List.forall₂_iff_get.1 h).2 k (h.length_eq ▸ hk) hk
  simpa [hk, h.length_eq ▸ hk] using hlt

/-- Picking the places of a permutation undoes picking by the permutation. -/
theorem pick_pick_placesOf (h : perm.Perm (List.range dims.length)) :
    pick (pick dims perm) (placesOf perm) = dims := by
  have hlen : perm.length = dims.length := by simpa using h.length_eq
  refine List.ext_getElem (by simp [pick, placesOf, hlen]) fun d _ hd => ?_
  have hmem : d ∈ perm := h.mem_iff.2 (List.mem_range.2 hd)
  have hplace : perm.idxOf d < perm.length := List.idxOf_lt_length_of_mem hmem
  simp [pick, placesOf, hplace, hd]

/-- Picking behind some outer numbers leaves these where they are. -/
theorem pick_behind {places : List Nat} :
    pick (outer ++ dims) (behind outer.length places) = outer ++ pick dims places := by
  rw [pick, behind, List.map_append, List.map_map, pick]
  congr 1
  · exact List.ext_getElem (by simp) fun d _ hd => by simp [List.getElem?_append_left hd, hd]
  · exact List.map_congr_left fun d _ => by simp [List.getElem?_append_right]

/-- A number moved up stands where it stood among the others moved up. -/
theorem idxOf_map_add {d n : Nat} : (perm.map (· + n)).idxOf (d + n) = perm.idxOf d := by
  induction perm with
  | nil => rfl
  | cons e perm ih => simp [List.idxOf_cons, ih, Bool.beq_eq_decide_eq]

/-- The places of a permutation behind outer dimensions are those of the permutation, behind them.
-/
theorem placesOf_behind {n : Nat} : placesOf (behind n perm) = behind n (placesOf perm) := by
  rw [placesOf, behind, List.length_append, List.length_range, List.length_map, List.range_add,
    List.map_append, List.map_map, behind, placesOf, List.map_map]
  congr 1
  · -- An outer dimension stands at its own number.
    refine List.ext_getElem (by simp) fun d _ hd => ?_
    rw [List.getElem_map, List.idxOf_append_of_mem (List.getElem_mem _)]
    rw [List.nodup_range.idxOf_getElem d _, List.getElem_range]
  · refine List.map_congr_left fun d _ => ?_
    have hout : n + d ∉ List.range n := by simp
    rw [Function.comp_apply, List.idxOf_append_of_notMem hout, Nat.add_comm n, idxOf_map_add,
      List.length_range, Nat.add_comm]
    rfl

/-- A permutation behind outer dimensions is a permutation of all dimensions. -/
theorem perm_behind {n r : Nat} (h : perm.Perm (List.range r)) :
    (behind n perm).Perm (List.range (n + r)) := by
  have hcomm : (fun d => n + d) = (· + n) := funext fun d => Nat.add_comm n d
  rw [List.range_add, hcomm]
  exact (h.map _).append_left _

/-! ### Layouts -/

/-- The elements of an array of some dimensions in another order. -/
structure Layout (dims : List Nat) where
  /-- The dimensions of the result. -/
  shape : List Nat
  /-- The index of the array where the element at an index of the result comes from. -/
  source : List Nat → List Nat
  /-- It is one of the array's indices. -/
  within : ∀ ix, Within ix shape → Within (source ix) dims

namespace Layout

/-- Every element where it is. -/
def same (dims : List Nat) : Layout dims := ⟨dims, id, fun _ h => h⟩

/-- The dimensions in the order of a permutation. -/
def rearranged (perm : List Nat) (h : perm.Perm (List.range dims.length)) : Layout dims where
  shape := pick dims perm
  source ix := pick ix (placesOf perm)
  within ix hix := by
    have hlen : (pick dims perm).length = perm.length := List.length_map ..
    have hwithin : Within (pick ix (placesOf perm)) (pick (pick dims perm) (placesOf perm)) := by
      refine within_pick hix fun k hk => ?_
      obtain ⟨d, hd, rfl⟩ := List.mem_map.1 hk
      have hmem : d ∈ perm := h.mem_iff.2 (by simpa [h.length_eq] using hd)
      exact hlen ▸ List.idxOf_lt_length_of_mem hmem
    rwa [pick_pick_placesOf h] at hwithin

/-- Other dimensions for as many elements, in row-major order. -/
def reshaped (shape : List Nat) (h : shape.prod = dims.prod) : Layout dims where
  shape := shape
  source ix := ofRowMajor dims (rowMajor shape ix)
  within _ hix := within_ofRowMajor (h ▸ rowMajor_lt hix)

/-- The dimensions in another order, if it is a permutation of all of them. -/
def rearranged? (perm : List Nat) : Option (Layout dims) :=
  if h : perm.Perm (List.range dims.length) then some (rearranged perm h) else none

/-- Other dimensions, if they hold as many elements. -/
def reshaped? (shape : List Nat) : Option (Layout dims) :=
  if h : shape.prod = dims.prod then some (reshaped shape h) else none

/-- Reshaping leaves each element its number in row-major order. -/
theorem rowMajor_source {h : shape.prod = dims.prod} (hix : Within ix shape) :
    rowMajor dims ((reshaped shape h).source ix) = rowMajor shape ix :=
  rowMajor_ofRowMajor (h ▸ rowMajor_lt hix)

/-- A layout of a whole array that does to the part at each point of the outer dimensions what
another layout does to an array of its size. -/
structure Lifts (l : Layout dims) (whole : Layout (outer ++ dims)) : Prop where
  /-- The results are arrays of results. -/
  shape : whole.shape = outer ++ l.shape
  /-- The elements stay in their part. -/
  source : ∀ point ix, Within point outer → Within ix l.shape →
    whole.source (point ++ ix) = point ++ l.source ix

/-- Leaving the whole array as it is leaves each part as it is. -/
theorem same_lifts : (same dims).Lifts (same (outer ++ dims)) where
  shape := rfl
  source _ _ _ _ := rfl

/-- A rearrangement of the dimensions behind the outer ones rearranges each part. -/
theorem rearranged?_lifts {l : Layout dims} (h : rearranged? perm = some l) :
    ∃ whole : Layout (outer ++ dims),
      rearranged? (behind outer.length perm) = some whole ∧ l.Lifts whole := by
  obtain ⟨hperm, heq⟩ := Option.dite_none_right_eq_some.1 h
  cases heq
  have hwhole : (behind outer.length perm).Perm (List.range (outer ++ dims).length) := by
    rw [List.length_append]
    exact perm_behind hperm
  refine ⟨_, dif_pos hwhole, pick_behind, fun point ix hpoint _ => ?_⟩
  show pick (point ++ ix) (placesOf (behind outer.length perm)) = point ++ pick ix (placesOf perm)
  rw [placesOf_behind, ← hpoint.length_eq, pick_behind]

/-- A reshaping that keeps the outer dimensions reshapes each part. -/
theorem reshaped?_lifts {l : Layout dims} (h : reshaped? shape = some l) :
    ∃ whole : Layout (outer ++ dims),
      reshaped? (outer ++ shape) = some whole ∧ l.Lifts whole := by
  obtain ⟨hprod, heq⟩ := Option.dite_none_right_eq_some.1 h
  cases heq
  have hwhole : (outer ++ shape).prod = (outer ++ dims).prod := by
    rw [List.prod_append, List.prod_append, hprod]
  refine ⟨_, dif_pos hwhole, rfl, fun point ix hpoint hix => ?_⟩
  show ofRowMajor (outer ++ dims) (rowMajor (outer ++ shape) (point ++ ix))
    = point ++ ofRowMajor dims (rowMajor shape ix)
  have hlt : rowMajor shape ix < dims.prod := hprod ▸ rowMajor_lt hix
  rw [rowMajor_append hpoint.length_eq, hprod, ofRowMajor_append (rowMajor_lt hpoint) hlt,
    ofRowMajor_rowMajor hpoint]

end Layout

end MapNest
