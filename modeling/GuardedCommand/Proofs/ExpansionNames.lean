import GuardedCommand.Proofs.Capture
import GuardedCommand.Proofs.ExpansionRules

/-! # Free names after an expansion

The parameters of a shorthand are the free names of its body, all of them and no others. If no
parameter occurs twice, the body with the arguments in it has the free names of the arguments: none
is lost, since every parameter occurs in the body, and none is added, since nothing else does. So
expansion keeps the free names of a formula, whatever binders are on the way, and the parameters
stay the free names of the bodies through all rounds.

* `Substitution.mem_freeNamesOf_zip`: arguments for parameters.
* `Shorthand.Closed`: the free names of the body are the parameters.
* `Node.Expands.mem_freeNames`: free names before and after an expansion.
* `ShorthandDef.ClosedAs`, `Shorthands.closedAs_of_round`: definitions through the rounds.
* `Shorthands.freeNames_of_define`: bodies and expansions.
-/

namespace GuardedCommand

/-! ## Arguments -/

/-- The names that take the place of different parameters are those of the arguments. -/
theorem Substitution.mem_freeNamesOf_zip {params : List String} {args : List Expr}
    (hnodup : params.Nodup) (hlength : args.length = params.length) {x : String} :
    x ∈ freeNamesOf ⟨params.zip args⟩ params ↔ x ∈ Expr.namesAll .free args := by
  induction params generalizing args with
  | nil =>
    obtain rfl := List.length_eq_zero_iff.mp hlength
    rfl
  | cons p params ih =>
    cases args with
    | nil => cases hlength
    | cons a args =>
      obtain ⟨hp, hnodup⟩ := List.nodup_cons.mp hnodup
      have hhead : replacement ⟨(p :: params).zip (a :: args)⟩ p = a := by
        refine replacement_of_lookup ?_
        rw [lookup, List.zip_cons_cons, List.lookup_cons, beq_self_eq_true]
      -- a later parameter is not replaced by the first argument
      have htail : ∀ y ∈ params, replacement ⟨(p :: params).zip (a :: args)⟩ y =
          replacement ⟨params.zip args⟩ y := by
        intro y hy
        have hne : y ≠ p := fun heq => hp (heq ▸ hy)
        simp only [replacement, lookup, List.zip_cons_cons, List.lookup_cons, beq_false_of_ne hne]
      have hih := ih hnodup (Nat.succ.inj hlength)
      rw [freeNamesOf, List.mem_flatMap] at hih ⊢
      rw [List.exists_mem_cons_iff, hhead, Expr.namesAll, List.mem_append, ← hih]
      refine or_congr Iff.rfl (exists_congr fun y => and_congr_right fun hy => ?_)
      rw [htail y hy]

/-- Arguments of which each mentions the same names mention the same names together. -/
theorem Expr.mem_namesAll_congr {es es' : List Expr} (hlength : es.length = es'.length)
    (h : ∀ a ∈ es.zip es', ∀ x, x ∈ a.2.freeNames ↔ x ∈ a.1.freeNames) (x : String) :
    x ∈ Expr.namesAll .free es' ↔ x ∈ Expr.namesAll .free es := by
  induction es generalizing es' with
  | nil =>
    obtain rfl := List.length_eq_zero_iff.mp hlength.symm
    rfl
  | cons e es ih =>
    cases es' with
    | nil => cases hlength
    | cons e' es' =>
      rw [List.zip_cons_cons, List.forall_mem_cons] at h
      rw [Expr.namesAll, Expr.namesAll, List.mem_append, List.mem_append,
        ih (Nat.succ.inj hlength) h.2]
      exact or_congr (h.1 x) Iff.rfl

/-- The free names of a count are those of its two conditions, without the bound variable. -/
theorem IntExpr.mem_freeNames_count {k x : String} {c p : Predicate} :
    x ∈ (IntExpr.count k c p).freeNames ↔ (x ∈ c.freeNames ∨ x ∈ p.freeNames) ∧ x ≠ k := by
  rw [IntExpr.freeNames, IntExpr.names, Mention.mem_binder_free, List.mem_append,
    Predicate.freeNames, Predicate.freeNames]

/-! ## Expansion -/

/-- No parameter occurs twice, and the free names of the body are the parameters. -/
structure Shorthand.Closed (s : Shorthand) : Prop where
  /-- The parameters are different from each other. -/
  nodup : s.params.Nodup
  /-- The free names are the parameters. -/
  mem_freeNames (x : String) : x ∈ s.body.freeNames ↔ x ∈ s.params

/-- The body of a closed shorthand, with arguments in it, has the free names of the arguments. -/
theorem Shorthand.Closed.mem_freeNames_of_becomes {s : Shorthand} (hs : s.Closed)
    {args : List Expr} {n : Node} (hlength : args.length = s.params.length)
    (h : s.body.node.Becomes ⟨s.params.zip args⟩ n) (x : String) :
    x ∈ n.freeNames ↔ x ∈ Expr.namesAll .free args := by
  rw [h.freeNames_eq, s.body.freeNames_node,
    ← Substitution.mem_freeNamesOf_zip hs.nodup hlength, Substitution.freeNamesOf,
    Substitution.freeNamesOf, List.mem_flatMap, List.mem_flatMap]
  exact exists_congr fun y => and_congr_left fun _ => hs.mem_freeNames y

/-- Expansion with closed shorthands keeps the free names. -/
theorem Node.Expands.mem_freeNames {table : Shorthands} (htable : ∀ s ∈ table.defs, s.Closed)
    {n n' : Node} (h : n.Expands table n') (x : String) :
    x ∈ n'.freeNames ↔ x ∈ n.freeNames := by
  induction h generalizing x with
  | name | const | truth => rfl
  | select _ _ ihb ihi =>
    simp only [Node.freeNames, Variable.freeNames_select, List.mem_append] at ihb ihi ⊢
    rw [ihb, ihi]
  | store _ _ _ ihb ihi ihe =>
    simp only [Node.freeNames, Variable.freeNames_store, List.mem_append] at ihb ihi ihe ⊢
    rw [ihb, ihi, ihe]
  | map _ ih | int _ ih | var _ ih | negate _ ih | not _ ih => exact ih x
  | arith _ _ ihl ihr =>
    simp only [Node.freeNames, IntExpr.freeNames_binary, List.mem_append] at ihl ihr ⊢
    rw [ihl, ihr]
  | connective _ _ ihl ihr =>
    simp only [Node.freeNames, Predicate.freeNames_binary, List.mem_append] at ihl ihr ⊢
    rw [ihl, ihr]
  | comp _ _ ihl ihr =>
    simp only [Node.freeNames, Predicate.freeNames_comp, List.mem_append] at ihl ihr ⊢
    rw [ihl, ihr]
  | function _ hlength _ ih | relation _ hlength _ ih => exact Expr.mem_namesAll_congr hlength ih x
  | functionBody hs hbody hlength _ hparams hbecomes ih
  | relationBody hs hbody hlength _ hparams hbecomes ih =>
    -- the names of the body are those of the expanded arguments, which are those of the arguments
    have hclosed := htable _ (Shorthands.mem_defs_of_resolve? hs)
    refine (hclosed.mem_freeNames_of_becomes hparams ?_ x).trans
      (Expr.mem_namesAll_congr hlength ih x)
    rw [hbody]
    exact hbecomes
  | fold _ _ ihc ihe =>
    simp only [Node.freeNames, IntExpr.mem_freeNames_fold] at ihc ihe ⊢
    rw [ihc, ihe]
  | count _ _ ihc ihp =>
    simp only [Node.freeNames, IntExpr.mem_freeNames_count] at ihc ihp ⊢
    rw [ihc, ihp]
  | perm _ _ _ iha ihb ihn =>
    simp only [Node.freeNames, Predicate.freeNames_perm, List.mem_append] at iha ihb ihn ⊢
    rw [iha, ihb, ihn]
  | quant _ _ ihc ihp =>
    simp only [Node.freeNames, Predicate.mem_freeNames_quant] at ihc ihp ⊢
    rw [ihc, ihp]

/-! ## Definitions -/

/-- The shorthand `s` has the name and the parameters of a definition, and is closed. -/
structure ShorthandDef.ClosedAs (d : ShorthandDef) (s : Shorthand) : Prop extends s.Closed where
  /-- The name of the definition. -/
  name : s.name = d.name
  /-- The parameters of the definition. -/
  params : s.params = d.args

/-- A definition that passes has the free names of its body as its parameters. -/
theorem ShorthandDef.closedAs_of_check {d : ShorthandDef} {s : Shorthand} (h : d.check = .ok s)
    (hnodup : d.args.Nodup) : d.ClosedAs s := by
  unfold ShorthandDef.check at h
  split at h
  · cases h
  · split at h
    · cases h
    · next body hbody =>
      dsimp only at h
      split_ifs at h with hnames
      cases h
      refine ⟨⟨hnodup, fun x => ?_⟩, rfl, rfl⟩
      -- parameters and free names are compared as sorted lists
      rw [← mem_sortedNames, ← hnames, mem_sortedNames]

namespace Shorthands

variable {defs : List ShorthandDef} {table table' : Shorthands}

/-- Shorthands that are closed as their definitions say are closed. -/
theorem closed_of_closedAs (h : List.Forall₂ ShorthandDef.ClosedAs defs table.defs) :
    ∀ s ∈ table.defs, s.Closed := by
  intro s hs
  obtain ⟨d, hd⟩ := exists_of_forall₂_right h hs
  exact hd.toClosed

/-- A round keeps the free names of all bodies. -/
theorem closedAs_of_round (h : List.Forall₂ ShorthandDef.ClosedAs defs table.defs)
    (hround : table.round = .ok table') :
    List.Forall₂ ShorthandDef.ClosedAs defs table'.defs := by
  refine forall₂_comp (fun d s t hs hexpands => ?_) h (expandsTo_of_round hround)
  have hbody := hexpands.body.mem_freeNames (closed_of_closedAs h)
  refine ⟨⟨?_, fun x => ?_⟩, hexpands.name.trans hs.name, hexpands.params.trans hs.params⟩
  · rw [hexpands.params]
    exact hs.nodup
  · rw [hexpands.params, ← t.body.freeNames_node, hbody, s.body.freeNames_node]
    exact hs.mem_freeNames x

/-- Definitions with different parameters have the free names of their bodies as parameters, before
and after the bodies are expanded into each other, and expansion keeps the free names of every
predicate and every integer expression. -/
theorem freeNames_of_define (h : define defs = .ok table) (hnodup : ∀ d ∈ defs, d.args.Nodup) :
    List.Forall₂ (fun d s => s.name = d.name ∧ s.params = d.args ∧
      ∀ x, x ∈ s.body.freeNames ↔ x ∈ d.args) defs table.defs ∧
    (∀ p p', table.predicate p = .ok p' → ∀ x, x ∈ p'.freeNames ↔ x ∈ p.freeNames) ∧
    ∀ e e', table.int e = .ok e' → ∀ x, x ∈ e'.freeNames ↔ x ∈ e.freeNames := by
  obtain ⟨given, hgiven, hrounds⟩ := exists_of_bind_eq_ok h
  have hstart : List.Forall₂ ShorthandDef.ClosedAs defs given := by
    have hchecked := (List.forall₂_and_left defs given).mpr
      ⟨hnodup, forall₂_of_mapM_eq_ok hgiven⟩
    exact hchecked.imp fun d s hd => ShorthandDef.closedAs_of_check hd.2 hd.1
  have hclosed : List.Forall₂ ShorthandDef.ClosedAs defs table.defs :=
    invariant_of_rounds (P := fun _ t => List.Forall₂ ShorthandDef.ClosedAs defs t.defs)
      (fun _ _ _ => closedAs_of_round) (r := 0) hstart hrounds
  have htable := closed_of_closedAs hclosed
  refine ⟨?_, fun p p' hp => ?_, fun e e' he => ?_⟩
  · refine hclosed.imp fun d s hs => ⟨hs.name, hs.params, fun x => ?_⟩
    rw [hs.mem_freeNames, hs.params]
  · exact (expands_of_predicate p hp).mem_freeNames htable
  · exact (expands_of_int e he).mem_freeNames htable

end Shorthands

/-- The sample formula has the only free name `b`, and so has its expansion, in which a binder is
renamed. -/
theorem Shorthands.Sample.formula_freeNames :
    ∃ table p, define defs = .ok table ∧ (∀ d ∈ defs, d.args.Nodup) ∧
      table.predicate formula = .ok p ∧ p ≠ formula ∧
      ∀ x, x ∈ p.freeNames ↔ x = "b" := by
  obtain ⟨table, p, hdefine, hp, hne⟩ := exists_expansion
  have hnodup : ∀ d ∈ defs, d.args.Nodup := by decide +kernel
  obtain ⟨-, hpredicate, -⟩ := freeNames_of_define hdefine hnodup
  refine ⟨table, p, hdefine, hnodup, hp, hne, fun x => ?_⟩
  have hfree : formula.freeNames = ["b", "b"] := by decide +kernel
  rw [hpredicate formula p hp, hfree]
  simp

end GuardedCommand
