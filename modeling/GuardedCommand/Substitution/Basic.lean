import GuardedCommand.Names.Basic
import GuardedCommand.Names.Fresh
import GuardedCommand.Surface.Formula
import GuardedCommand.Syntax.Equality

/-! # Substitution

Simultaneous substitution of expressions for the free names of a formula. A bound variable that a
replacement mentions is renamed first, so nothing is captured. Names stand for maps as well as for
integers, and a replacement has to be of the kind its place asks for; otherwise the substitution
fails with a `SubstError`.

* `Substitution`: pairs of a name and its replacement; the first pair for a name counts.
* `Substitution.under`: what is left of a substitution below a binder, and the bound variable there.
* `Predicate.substIn` and its companions: substitution with an explicit supply of fresh names.
* `Predicate.subst` and its companions: substitution with a supply that avoids every name in sight.
-/

namespace GuardedCommand

/-- Why a substitution is impossible. -/
inductive SubstError where
  /-- An integer would stand where a map is needed. -/
  | scalarForMap (found : Expr)
  /-- A map would stand where an integer is needed. -/
  | mapForScalar (found : Variable)
  /-- Something else than a name is to be replaced. -/
  | notAName (found : Variable)
  /-- There are not as many names as replacements. -/
  | lengthMismatch (names exprs : Nat)
  deriving DecidableEq

/-- What is reported for an impossible substitution. -/
def SubstError.message : SubstError → String
  | .scalarForMap e =>
    "attempted to substitute a scalar where a map was expected: `" ++ e.render ++ "`"
  | .mapForScalar v =>
    "attempted to substitute a map where an integer was expected: `" ++ v.render ++ "`"
  | .notAName v => "only plain names can be substituted, got `" ++ v.render ++ "`"
  | .lengthMismatch names exprs =>
    toString names ++ " names but " ++ toString exprs ++ " replacement expressions"

/-- Names with the expressions that replace them, all at once. -/
structure Substitution where
  /-- The pairs; of several pairs for one name the first counts. -/
  pairs : List (String × Expr)
  deriving DecidableEq

namespace Substitution

/-- The replacement of a name, if it has one. -/
def lookup (σ : Substitution) (x : String) : Option Expr :=
  σ.pairs.lookup x

/-- The substitution without its pairs for `k`. -/
def hide (σ : Substitution) (k : String) : Substitution :=
  ⟨σ.pairs.filter fun pair => pair.1 ≠ k⟩

/-- Whether some replacement mentions `k` free. -/
def mentions (σ : Substitution) (k : String) : Bool :=
  σ.pairs.any fun pair => pair.2.freeNames.contains k

/-- The substitution that moreover replaces `k` by the name `x`, after all its other pairs. -/
def rename (σ : Substitution) (k x : String) : Substitution :=
  ⟨σ.pairs ++ [(k, Expr.name x)]⟩

/-- What happens to a substitution at a binder of `k`: nothing is left to replace, or the parts of
the binder receive the remaining pairs under a bound variable that no replacement mentions. -/
def under (σ : Substitution) (k : String) (fresh : FreshNames) :
    Option (String × Substitution × FreshNames) :=
  let inner := σ.hide k
  if inner.pairs.isEmpty then none
  else if inner.mentions k then
    some (fresh.next.1, inner.rename k fresh.next.1, fresh.next.2)
  else some (k, inner, fresh)

end Substitution

/-- The variable a replaced map has become; a map cannot become an integer. -/
def Expr.toMap (e : Expr) : Except SubstError Variable :=
  match e.asVariable with
  | some v => .ok v
  | none => .error (.scalarForMap e)

/-- The integer expression a replaced variable has become; a stored map is none. -/
def Expr.toInt : Expr → Except SubstError IntExpr
  | .int e => .ok e
  | .map (.store b i e) => .error (.mapForScalar (.store b i e))
  | .map v => .ok (.var v)

/-- What a replaced name has become as an argument, where both kinds are welcome: a name or an
element is used as an integer again, all else is kept. -/
def Expr.toArgument : Expr → Expr
  | .map (.name x) => .int (.var (.name x))
  | .map (.select b i) => .int (.var (.select b i))
  | e => e

mutual

/-- Substitution in a variable, which may become an expression of either kind. -/
def Variable.substIn (σ : Substitution) :
    Variable → FreshNames → Except SubstError (Expr × FreshNames)
  | .name x, fresh => .ok ((σ.lookup x).getD (.map (.name x)), fresh)
  | .select b i, fresh => do
    let (b', fresh) ← b.substIn σ fresh
    let b' ← b'.toMap
    let (i', fresh) ← i.substIn σ fresh
    .ok (.map (.select b' i'), fresh)
  | .store b i e, fresh => do
    let (b', fresh) ← b.substIn σ fresh
    let b' ← b'.toMap
    let (i', fresh) ← i.substIn σ fresh
    let (e', fresh) ← e.substIn σ fresh
    .ok (.map (.store b' i' e'), fresh)

/-- Substitution in an argument or a stored value, which accept both kinds. -/
def Expr.substIn (σ : Substitution) : Expr → FreshNames → Except SubstError (Expr × FreshNames)
  | .map v, fresh => v.substIn σ fresh
  | .int (.var (.name x)), fresh => .ok (((σ.lookup x).getD (.map (.name x))).toArgument, fresh)
  | .int e, fresh => do
    let (e', fresh) ← e.substIn σ fresh
    .ok (.int e', fresh)

/-- Substitution in an integer expression. -/
def IntExpr.substIn (σ : Substitution) :
    IntExpr → FreshNames → Except SubstError (IntExpr × FreshNames)
  | .const c, fresh => .ok (.const c, fresh)
  | .var v, fresh => do
    let (e, fresh) ← v.substIn σ fresh
    let e ← e.toInt
    .ok (e, fresh)
  | .negate e, fresh => do
    let (e', fresh) ← e.substIn σ fresh
    .ok (.negate e', fresh)
  | .binary op l r, fresh => do
    let (l', fresh) ← l.substIn σ fresh
    let (r', fresh) ← r.substIn σ fresh
    .ok (.binary op l' r', fresh)
  | .call f args, fresh => do
    let (args', fresh) ← Expr.substAll σ args fresh
    .ok (.call f args', fresh)
  | .fold op k c e, fresh =>
    match σ.under k fresh with
    | none => .ok (.fold op k c e, fresh)
    | some (k', τ, fresh) => do
      let (c', fresh) ← c.substIn τ fresh
      let (e', fresh) ← e.substIn τ fresh
      .ok (.fold op k' c' e', fresh)
  | .count k c p, fresh =>
    match σ.under k fresh with
    | none => .ok (.count k c p, fresh)
    | some (k', τ, fresh) => do
      let (c', fresh) ← c.substIn τ fresh
      let (p', fresh) ← p.substIn τ fresh
      .ok (.count k' c' p', fresh)

/-- Substitution in a predicate. -/
def Predicate.substIn (σ : Substitution) :
    Predicate → FreshNames → Except SubstError (Predicate × FreshNames)
  | .const b, fresh => .ok (.const b, fresh)
  | .not p, fresh => do
    let (p', fresh) ← p.substIn σ fresh
    .ok (.not p', fresh)
  | .binary op l r, fresh => do
    let (l', fresh) ← l.substIn σ fresh
    let (r', fresh) ← r.substIn σ fresh
    .ok (.binary op l' r', fresh)
  | .comp op l r, fresh => do
    let (l', fresh) ← l.substIn σ fresh
    let (r', fresh) ← r.substIn σ fresh
    .ok (.comp op l' r', fresh)
  | .call f args, fresh => do
    let (args', fresh) ← Expr.substAll σ args fresh
    .ok (.call f args', fresh)
  | .perm a b n, fresh => do
    let (a', fresh) ← a.substIn σ fresh
    let a' ← a'.toMap
    let (b', fresh) ← b.substIn σ fresh
    let b' ← b'.toMap
    let (n', fresh) ← n.substIn σ fresh
    .ok (.perm a' b' n', fresh)
  | .quant q k c p, fresh =>
    match σ.under k fresh with
    | none => .ok (.quant q k c p, fresh)
    | some (k', τ, fresh) => do
      let (c', fresh) ← c.substIn τ fresh
      let (p', fresh) ← p.substIn τ fresh
      .ok (.quant q k' c' p', fresh)

/-- Substitution in a list of arguments, from left to right. -/
def Expr.substAll (σ : Substitution) :
    List Expr → FreshNames → Except SubstError (List Expr × FreshNames)
  | [], fresh => .ok ([], fresh)
  | e :: es, fresh => do
    let (e', fresh) ← e.substIn σ fresh
    let (es', fresh) ← Expr.substAll σ es fresh
    .ok (e' :: es', fresh)

end

namespace Substitution

/-- Pairs each target with its replacement. Targets have to be plain names. -/
def ofTargets (targets : List Variable) (exprs : List Expr) : Except SubstError Substitution :=
  if targets.length ≠ exprs.length then
    .error (.lengthMismatch targets.length exprs.length)
  else do
    let pairs ← (targets.zip exprs).mapM fun
      | (.name x, e) => Except.ok (x, e)
      | (v, _) => Except.error (SubstError.notAName v)
    .ok ⟨pairs⟩

/-- The substitution of one expression for one name. -/
def single (x : String) (e : Expr) : Substitution :=
  ⟨[(x, e)]⟩

/-- Every name of the substitution itself, replaced or mentioned. -/
def names (σ : Substitution) : List String :=
  σ.pairs.flatMap fun pair => pair.1 :: pair.2.allNames

/-- A supply of names that are neither in `node` nor in the substitution. -/
def freshFor (σ : Substitution) (node : List String) : FreshNames :=
  .avoiding (node ++ σ.names)

end Substitution

/-- A predicate with expressions substituted for its free names. -/
def Predicate.subst (σ : Substitution) (p : Predicate) : Except SubstError Predicate :=
  Prod.fst <$> p.substIn σ (σ.freshFor p.allNames)

/-- An integer expression with expressions substituted for its free names. -/
def IntExpr.subst (σ : Substitution) (e : IntExpr) : Except SubstError IntExpr :=
  Prod.fst <$> e.substIn σ (σ.freshFor e.allNames)

/-- A variable with expressions substituted for its free names; it may become an expression of
either kind. -/
def Variable.subst (σ : Substitution) (v : Variable) : Except SubstError Expr :=
  Prod.fst <$> v.substIn σ (σ.freshFor v.allNames)

/-- An expression with expressions substituted for its free names. -/
def Expr.subst (σ : Substitution) (e : Expr) : Except SubstError Expr :=
  Prod.fst <$> e.substIn σ (σ.freshFor e.allNames)

end GuardedCommand
