import GuardedCommand.Names.Fresh
import Mathlib.Logic.Function.Basic

/-! # Supplies of fresh names

What a supply of names promises: none of its names is among those it avoids, and no name is supplied
twice.

* `FreshNames.Avoids`: no name still to come is in a list.
* `FreshNames.avoids_avoiding`: a new supply avoids the names it was made for.
* `FreshNames.Avoids.next`: after a name was taken the supply avoids it as well.
* `FreshNames.Avoids.take`: so any number of names that are taken one after the other are different.
-/

namespace GuardedCommand

namespace FreshNames

/-- None of the names that `fresh` has still to supply is among `names`. -/
def Avoids (fresh : FreshNames) (names : List String) : Prop :=
  ∀ i, fresh.used ≤ i → fresh.nameAt i ∉ names

/-- A supply that has gone further with the same stem. -/
def Extends (fresh' fresh : FreshNames) : Prop :=
  fresh'.stem = fresh.stem ∧ fresh.used ≤ fresh'.used

/-- Every name is at most as long as the longest. -/
theorem byteLength_le_longest {names : List String} {x : String} (h : x ∈ names) :
    byteLength x.toList ≤ longest names := by
  induction names with
  | nil => cases h
  | cons y ys ih =>
    rcases List.mem_cons.mp h with rfl | h
    · exact Nat.le_max_left _ _
    · exact Nat.le_trans (ih h) (Nat.le_max_right _ _)

/-- The stem of a new supply is as long as the longest name it has to avoid. -/
theorem longest_le_byteLength_stem (names : List String) :
    longest names ≤ byteLength (avoiding names).stem.toList := by
  have hfill (n : Nat) : byteLength (List.replicate n 'A') = n := by
    induction n with
    | zero => rfl
    | succ n ih =>
      rw [List.replicate_succ, byteLength_cons, ih, show 'A'.utf8Size = 1 from by decide,
        Nat.add_comm]
  rw [avoiding, String.toList_ofList, byteLength_append, hfill]
  omega

/-- A supplied name is longer than the stem. -/
theorem byteLength_stem_lt (fresh : FreshNames) (i : Nat) :
    byteLength fresh.stem.toList < byteLength (fresh.nameAt i).toList := by
  have hdigits : 0 < byteLength (toString i).toList := by
    rw [Nat.toString_eq_repr, Nat.toList_repr]
    cases hd : Nat.toDigits 10 i with
    | nil => exact absurd hd Nat.toDigits_ne_nil
    | cons c cs =>
      have := c.utf8Size_pos
      rw [byteLength_cons]
      omega
  rw [nameAt, String.toList_append, byteLength_append]
  omega

/-- Different numbers give different names. -/
theorem nameAt_injective (fresh : FreshNames) : Function.Injective fresh.nameAt := by
  intro i j h
  have hlist : fresh.stem.toList ++ (toString i).toList =
      fresh.stem.toList ++ (toString j).toList := by
    rw [← String.toList_append, ← String.toList_append]
    exact congrArg String.toList h
  have hdigits := List.append_cancel_left hlist
  rw [Nat.toString_eq_repr, Nat.toString_eq_repr, Nat.toList_repr, Nat.toList_repr] at hdigits
  -- reading the digits back gives the number
  rw [← Nat.ofDigitChars_ten_toDigits (n := i), hdigits, Nat.ofDigitChars_ten_toDigits]

/-- A new supply avoids the names it was made for: all its names are longer. -/
theorem avoids_avoiding (names : List String) : (avoiding names).Avoids names := by
  intro i _ hmem
  have hshort := byteLength_le_longest hmem
  have hstem := longest_le_byteLength_stem names
  have hlong := byteLength_stem_lt (avoiding names) i
  omega

/-- The next name is none of the avoided ones. -/
theorem Avoids.next_notMem {fresh : FreshNames} {names : List String} (h : fresh.Avoids names) :
    fresh.next.1 ∉ names :=
  h fresh.used (Nat.le_refl _)

/-- The supply that is left avoids the name that was taken too. -/
theorem Avoids.next {fresh : FreshNames} {names : List String} (h : fresh.Avoids names) :
    fresh.next.2.Avoids (fresh.next.1 :: names) := by
  intro i hi hmem
  have hused : fresh.used + 1 ≤ i := hi
  rcases List.mem_cons.mp hmem with heq | hmem
  · have : i = fresh.used := fresh.nameAt_injective heq
    omega
  · exact h i (by omega) hmem

/-- A supply that has gone further avoids the same names. -/
theorem Avoids.of_extends {fresh fresh' : FreshNames} {names : List String}
    (h : fresh.Avoids names) (hext : fresh'.Extends fresh) : fresh'.Avoids names := by
  intro i hi
  rw [nameAt, hext.1]
  exact h i (Nat.le_trans hext.2 hi)

/-- A supply extends itself. -/
theorem Extends.refl (fresh : FreshNames) : fresh.Extends fresh :=
  ⟨rfl, Nat.le_refl _⟩

/-- A supply that extends an extension extends the first one. -/
theorem Extends.trans {fresh fresh' fresh'' : FreshNames} (h' : fresh''.Extends fresh')
    (h : fresh'.Extends fresh) : fresh''.Extends fresh :=
  ⟨h'.1.trans h.1, Nat.le_trans h.2 h'.2⟩

/-- A supply from which a name was taken extends the one before. -/
theorem extends_next (fresh : FreshNames) : fresh.next.2.Extends fresh :=
  ⟨rfl, Nat.le_succ _⟩

/-! ## Several names -/

/-- As many names are taken as are asked for. -/
theorem length_take (n : Nat) (fresh : FreshNames) : (take n fresh).length = n := by
  induction n generalizing fresh with
  | zero => rfl
  | succ n ih => rw [take, List.length_cons, ih]

/-- Names taken one after the other are different from one another and from the avoided ones. -/
theorem Avoids.take {fresh : FreshNames} {names : List String} (h : fresh.Avoids names) (n : Nat) :
    (take n fresh).Nodup ∧ ∀ x ∈ take n fresh, x ∉ names := by
  induction n generalizing fresh names with
  | zero => exact ⟨List.nodup_nil, fun _ hx => by cases hx⟩
  | succ n ih =>
    -- the names after the first one avoid it as well
    obtain ⟨hnodup, hrest⟩ := ih h.next
    rw [FreshNames.take]
    refine ⟨List.nodup_cons.mpr ⟨fun hfirst => ?_, hnodup⟩, ?_⟩
    · exact hrest _ hfirst List.mem_cons_self
    · intro x hx hmem
      rcases List.mem_cons.mp hx with rfl | hx
      · exact h.next_notMem hmem
      · exact hrest x hx (List.mem_cons_of_mem _ hmem)

/-- A new supply gives as many names as are asked for, all of them different and none of them among
those it was made to avoid. -/
theorem take_avoiding (names : List String) (n : Nat) :
    (take n (avoiding names)).length = n ∧ (take n (avoiding names)).Nodup ∧
      ∀ x ∈ take n (avoiding names), x ∉ names :=
  ⟨length_take n _, ((avoids_avoiding names).take n).1, ((avoids_avoiding names).take n).2⟩

/-- Names to avoid may look like supplied ones and be longer in bytes than in characters; the
eleventh name has one digit more than those before. -/
theorem take_avoiding_lookalikes :
    "uniqueNameAA10" ∈ take 11 (avoiding ["uniqueNameA0", "ßßßßßß", "uniqueName10"]) ∧
    (take 11 (avoiding ["uniqueNameA0", "ßßßßßß", "uniqueName10"])).Nodup ∧
    "uniqueNameAA10" ∉ ["uniqueNameA0", "ßßßßßß", "uniqueName10"] := by
  have hmem : "uniqueNameAA10" ∈
      take 11 (avoiding ["uniqueNameA0", "ßßßßßß", "uniqueName10"]) := by decide +kernel
  obtain ⟨-, hnodup, hfresh⟩ := take_avoiding ["uniqueNameA0", "ßßßßßß", "uniqueName10"] 11
  exact ⟨hmem, hnodup, hfresh _ hmem⟩

end FreshNames

end GuardedCommand
