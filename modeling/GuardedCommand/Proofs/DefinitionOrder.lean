import GuardedCommand.Proofs.ExpansionRules
import Mathlib.Data.List.Perm.Basic

/-! # The order of definitions

A shorthand is found by its name, and nothing else of a table is ever looked at. Every round reads
the bodies of the round before, so where a definition stands among definitions with other names
makes no difference: it is expanded in the same way from any place.

* `Shorthands.Agree`: two tables in which every name stands for the same shorthand. All expansions
  with them are the same.
* `Shorthands.Reordered`: tables with the same shorthands, of different names, in some other order.
* `Shorthands.Reordered.round`, `Shorthands.Reordered.rounds`: one round of expansion, and any
  number of them.
* `Shorthands.expansions_of_perm`: definitions in two orders.
-/

namespace GuardedCommand

/-! ## Lists of results -/

/-- A computation succeeds for a list if it does for all items. -/
theorem mapM_eq_ok_of_forall₂ {ε α β : Type} {f : α → Except ε β} {as : List α} {bs : List β}
    (h : List.Forall₂ (fun a b => f a = .ok b) as bs) : as.mapM f = .ok bs := by
  induction h with
  | nil => rfl
  | cons hab _ ih =>
    rw [List.mapM_cons, hab, ih]
    rfl

/-- For the items in another order a computation gives the same results in another order. -/
theorem exists_perm_of_mapM {ε α β : Type} {f : α → Except ε β} {as as' : List α} {bs : List β}
    (hperm : as.Perm as') (h : as.mapM f = .ok bs) :
    ∃ bs', as'.mapM f = .ok bs' ∧ bs.Perm bs' := by
  obtain ⟨bs', hbs', hresults⟩ := List.perm_comp_forall₂ hperm.symm (forall₂_of_mapM_eq_ok h)
  exact ⟨bs', mapM_eq_ok_of_forall₂ hbs', hresults.symm⟩

/-- Items that are related one by one have the same names, if related items do. -/
theorem map_eq_map_of_forall₂ {α β γ : Type} {R : α → β → Prop} {f : α → γ} {g : β → γ}
    {as : List α} {bs : List β} (h : List.Forall₂ R as bs) (hR : ∀ a b, R a b → f a = g b) :
    as.map f = bs.map g := by
  induction h with
  | nil => rfl
  | cons hab _ ih => rw [List.map_cons, List.map_cons, hR _ _ hab, ih]

namespace Shorthands

variable {table table' next : Shorthands}

/-! ## Tables that agree -/

/-- Every name stands for the same shorthand in two tables. -/
def Agree (table table' : Shorthands) : Prop := ∀ f, table.find? f = table'.find? f

namespace Agree

/-- Tables that agree expand the call of a relation in the same way. -/
theorem callPredicate (h : table.Agree table') (f : String) (args : List Expr) :
    table.callPredicate f args = table'.callPredicate f args := by
  simp only [Shorthands.callPredicate, h f]

/-- Tables that agree expand the call of a function in the same way. -/
theorem callInt (h : table.Agree table') (f : String) (args : List Expr) :
    table.callInt f args = table'.callInt f args := by
  simp only [Shorthands.callInt, h f]

mutual

/-- Tables that agree expand a variable in the same way. -/
theorem var (h : table.Agree table') : ∀ v : Variable, table.var v = table'.var v
  | .name x => by simp only [Shorthands.var]
  | .select b i => by simp only [Shorthands.var, h.var b, h.int i]
  | .store b i e => by simp only [Shorthands.var, h.var b, h.int i, h.expr e]

/-- Tables that agree expand an expression in the same way. -/
theorem expr (h : table.Agree table') : ∀ e : Expr, table.expr e = table'.expr e
  | .map v => by simp only [Shorthands.expr, h.var v]
  | .int e => by simp only [Shorthands.expr, h.int e]

/-- Tables that agree expand an integer expression in the same way. -/
theorem int (h : table.Agree table') : ∀ e : IntExpr, table.int e = table'.int e
  | .const c => by simp only [Shorthands.int]
  | .var v => by simp only [Shorthands.int, h.var v]
  | .negate e => by simp only [Shorthands.int, h.int e]
  | .binary op l r => by simp only [Shorthands.int, h.int l, h.int r]
  | .call f args => by simp only [Shorthands.int, h.exprs args, h.callInt f]
  | .fold op k c e => by simp only [Shorthands.int, h.predicate c, h.int e]
  | .count k c p => by simp only [Shorthands.int, h.predicate c, h.predicate p]

/-- Tables that agree expand a predicate in the same way. -/
theorem predicate (h : table.Agree table') : ∀ p : Predicate, table.predicate p = table'.predicate p
  | .const b => by simp only [Shorthands.predicate]
  | .not p => by simp only [Shorthands.predicate, h.predicate p]
  | .binary op l r => by simp only [Shorthands.predicate, h.predicate l, h.predicate r]
  | .comp op l r => by simp only [Shorthands.predicate, h.int l, h.int r]
  | .call f args => by simp only [Shorthands.predicate, h.exprs args, h.callPredicate f]
  | .perm a b n => by simp only [Shorthands.predicate, h.var a, h.var b, h.int n]
  | .quant q k c p => by simp only [Shorthands.predicate, h.predicate c, h.predicate p]

/-- Tables that agree expand arguments in the same way. -/
theorem exprs (h : table.Agree table') : ∀ es : List Expr, table.exprs es = table'.exprs es
  | [] => by simp only [Shorthands.exprs]
  | e :: es => by simp only [Shorthands.exprs, h.expr e, h.exprs es]

end

/-- Tables that agree expand a specification in the same way. -/
theorem spec (h : table.Agree table') (s : Spec) : table.spec s = table'.spec s := by
  have hloop : table.loopSpec = table'.loopSpec := by
    funext l
    simp only [loopSpec, h.predicate, h.int]
  simp only [Shorthands.spec, h.predicate, hloop]

/-- Tables that agree expand an assignment in the same way. -/
theorem assign (h : table.Agree table') (a : Assign) : table.assign a = table'.assign a := by
  have hvar : table.var = table'.var := funext h.var
  have hexpr : table.expr = table'.expr := funext h.expr
  simp only [Shorthands.assign, hvar, hexpr]

mutual

/-- Tables that agree expand a statement in the same way. -/
theorem statement (h : table.Agree table') : ∀ s : Statement, table.statement s = table'.statement s
  | .abort r | .skip r => by simp only [Shorthands.statement]
  | .assign a => by simp only [Shorthands.statement, h.assign a]
  | .cond guards bodies r | .loop guards bodies r => by
    have hpredicate : table.predicate = table'.predicate := funext h.predicate
    simp only [Shorthands.statement, hpredicate, h.bodies bodies]

/-- Tables that agree expand a sequence in the same way. -/
theorem statements (h : table.Agree table') :
    ∀ ss : List Statement, table.statements ss = table'.statements ss
  | [] => by simp only [Shorthands.statements]
  | s :: ss => by simp only [Shorthands.statements, h.statement s, h.statements ss]

/-- Tables that agree expand bodies in the same way. -/
theorem bodies (h : table.Agree table') :
    ∀ bs : List (List Statement), table.bodies bs = table'.bodies bs
  | [] => by simp only [Shorthands.bodies]
  | b :: bs => by simp only [Shorthands.bodies, h.statements b, h.bodies bs]

end

/-- Tables that agree expand a program in the same way. -/
theorem program (h : table.Agree table') (p : Program) : table.program p = table'.program p := by
  simp only [Shorthands.program, h.statements]

/-- Tables that agree expand the body of a shorthand in the same way. -/
theorem shorthand (h : table.Agree table') (s : Shorthand) :
    table.shorthand s = table'.shorthand s := by
  have hbody : table.body s.body = table'.body s.body := by
    cases s.body with
    | predicate p => simp only [body, h.predicate]
    | int e => simp only [body, h.int]
  rw [Shorthands.shorthand, hbody, Shorthands.shorthand]

end Agree

/-! ## Tables in another order -/

/-- The shorthands of `table'` are those of `table` in some order, and no two have the same name. -/
structure Reordered (table table' : Shorthands) : Prop where
  /-- The same shorthands. -/
  perm : table.defs.Perm table'.defs
  /-- Different names. -/
  nodup : (table.defs.map Shorthand.name).Nodup

/-- Where names are different, a shorthand is found under its name wherever it stands. -/
theorem find?_eq_some_iff_of_nodup (hnodup : (table.defs.map Shorthand.name).Nodup) {f : String}
    {s : Shorthand} : table.find? f = some s ↔ s ∈ table.defs ∧ s.name = f := by
  constructor
  · intro h
    exact ⟨List.mem_of_find?_eq_some h, by simpa using List.find?_some h⟩
  · rintro ⟨hs, rfl⟩
    -- something of this name is found, and it can only be `s`
    have hfound : (table.find? s.name).isSome := List.find?_isSome.mpr ⟨s, hs, by simp⟩
    obtain ⟨t, ht⟩ := Option.isSome_iff_exists.mp hfound
    have hname : t.name = s.name := by simpa using List.find?_some ht
    rw [ht, List.inj_on_of_nodup_map hnodup (List.mem_of_find?_eq_some ht) hs hname]

namespace Reordered

/-- The order of two tables can be read in both directions. -/
theorem symm (h : Reordered table table') : Reordered table' table :=
  ⟨h.perm.symm, (h.perm.map Shorthand.name).nodup_iff.mp h.nodup⟩

/-- In another order the names stand for the same shorthands. -/
theorem agree (h : Reordered table table') : table.Agree table' := by
  intro f
  ext s
  rw [find?_eq_some_iff_of_nodup h.nodup, find?_eq_some_iff_of_nodup h.symm.nodup, h.perm.mem_iff]

/-- A round succeeds in any order, and leaves the expanded shorthands in that order. -/
theorem round (h : Reordered table table') (hround : table.round = .ok next) :
    ∃ next', table'.round = .ok next' ∧ Reordered next next' := by
  have hnames : table.defs.map Shorthand.name = next.defs.map Shorthand.name :=
    map_eq_map_of_forall₂ (expandsTo_of_round hround) fun s t ht => ht.name.symm
  obtain ⟨ds, hds, hround⟩ := exists_of_bind_eq_ok hround
  cases hround
  -- the bodies are expanded with the tables as they were, which agree
  rw [show table.shorthand = table'.shorthand from funext h.agree.shorthand] at hds
  obtain ⟨ds', hds', hperm⟩ := exists_perm_of_mapM h.perm hds
  refine ⟨⟨ds'⟩, ?_, hperm, hnames ▸ h.nodup⟩
  rw [Shorthands.round, hds']
  rfl

/-- So does any number of rounds. -/
theorem rounds {n : Nat} (h : Reordered table table') (hrounds : rounds n table = .ok next) :
    ∃ next', Shorthands.rounds n table' = .ok next' ∧ Reordered next next' := by
  induction n generalizing table table' with
  | zero =>
    cases hrounds
    exact ⟨table', rfl, h⟩
  | succ n ih =>
    obtain ⟨t, ht, hrounds⟩ := exists_of_bind_eq_ok hrounds
    obtain ⟨t', ht', hreordered⟩ := h.round ht
    obtain ⟨next', hnext', hresult⟩ := ih hreordered hrounds
    refine ⟨next', ?_, hresult⟩
    rw [Shorthands.rounds, ht']
    exact hnext'

/-- Definitions that succeed do so in any order. -/
theorem of_define {defs defs' : List ShorthandDef} (hnodup : (defs.map ShorthandDef.name).Nodup)
    (hperm : defs.Perm defs') (h : define defs = .ok table) :
    ∃ table', define defs' = .ok table' ∧ Reordered table table' := by
  obtain ⟨given, hgiven, hrounds⟩ := exists_of_bind_eq_ok h
  obtain ⟨given', hgiven', hgivenPerm⟩ := exists_perm_of_mapM hperm hgiven
  have hnames : defs.map ShorthandDef.name = given.map Shorthand.name :=
    map_eq_map_of_forall₂ (forall₂_of_mapM_eq_ok hgiven) fun d s hd =>
      (ShorthandDef.gives_of_check hd).1.name.symm
  have hreordered : Reordered ⟨given⟩ ⟨given'⟩ := ⟨hgivenPerm, hnames ▸ hnodup⟩
  obtain ⟨table', htable', hresult⟩ := hreordered.rounds hrounds
  refine ⟨table', ?_, hresult⟩
  -- there are as many rounds, since there are as many definitions
  rw [define, hgiven', ← htable', hgivenPerm.length_eq]
  rfl

end Reordered

/-! ## Definitions in another order -/

/-- Definitions with different names can be put in any order: they succeed in both orders or fail in
both, and if they succeed then every name stands for the same shorthand, and predicates, integer
expressions, specifications and programs are expanded in the same way, or fail in the same way. -/
theorem expansions_of_perm {defs defs' : List ShorthandDef}
    (hnodup : (defs.map ShorthandDef.name).Nodup) (hperm : defs.Perm defs') :
    (∃ e e', define defs = .error e ∧ define defs' = .error e') ∨
    ∃ table table', define defs = .ok table ∧ define defs' = .ok table' ∧
      (∀ f, table.find? f = table'.find? f) ∧
      (∀ p, table.predicate p = table'.predicate p) ∧ (∀ e, table.int e = table'.int e) ∧
      (∀ s, table.spec s = table'.spec s) ∧ ∀ p, table.program p = table'.program p := by
  cases hdefs : define defs with
  | ok table =>
    obtain ⟨table', htable', hreordered⟩ := Reordered.of_define hnodup hperm hdefs
    have hagree := hreordered.agree
    exact .inr ⟨table, table', rfl, htable', hagree, hagree.predicate, hagree.int, hagree.spec,
      hagree.program⟩
  | error e =>
    cases hdefs' : define defs' with
    | error e' => exact .inl ⟨e, e', rfl, rfl⟩
    | ok table' =>
      -- the first order would succeed as well
      have hnodup' := (hperm.map ShorthandDef.name).nodup_iff.mp hnodup
      obtain ⟨table, htable, -⟩ := Reordered.of_define hnodup' hperm.symm hdefs'
      rw [hdefs] at htable
      cases htable

/-- A definition that calls a later one, and one that calls itself: backwards they give the same
expansion. -/
theorem Sample.formula_of_reverse :
    (Sample.defs.map ShorthandDef.name).Nodup ∧ Sample.defs.Perm Sample.defs.reverse ∧
      ∃ table table' p, define Sample.defs = .ok table ∧
        define Sample.defs.reverse = .ok table' ∧
        table.predicate Sample.formula = .ok p ∧ table'.predicate Sample.formula = .ok p ∧
        p ≠ Sample.formula := by
  have hnodup : (Sample.defs.map ShorthandDef.name).Nodup := by decide
  have hperm : Sample.defs.Perm Sample.defs.reverse := (List.reverse_perm _).symm
  refine ⟨hnodup, hperm, ?_⟩
  obtain ⟨table, p, htable, hp, hne⟩ := Sample.exists_expansion
  rcases expansions_of_perm hnodup hperm with ⟨e, -, he, -⟩ | ⟨t, t', ht, ht', -, hpredicate, -⟩
  · rw [htable] at he
    cases he
  · rw [htable] at ht
    cases ht
    exact ⟨table, t', p, htable, ht', hp, hpredicate Sample.formula ▸ hp, hne⟩

end Shorthands

end GuardedCommand
